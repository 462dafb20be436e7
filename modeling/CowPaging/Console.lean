import Mathlib.Data.List.Induction
import CowPaging.Lib.Bytes
import CowPaging.Lib.Fifo

/-!
# The console input

`consoleintr` edits a line in a ring of 128 bytes and commits it at a newline, at ^D or when
the ring is full; `consoleread` takes committed characters. Both hold `cons.lock` from start to
end, except that `consoleread` gives it up while it sleeps, so a step of the system is a string
of typed characters or one stretch of a reader up to its sleep or its return. What is echoed
to the screen and the process listing of ^P are left out.

Next to the input stands what the typed characters mean by the rules of line editing, and a
log of the characters that reads consumed.
-/

namespace CowPaging.Console

open Bytes Fifo
open Function (update_of_ne update_self update)

def INPUT_BUF : Nat := 128

/-- `input`. -/
structure Input where
  buf : Nat → Byte
  r : Word
  w : Word
  e : Word

def newline : Byte := 10

/-- `C(x)` for the upper-case letter with this code. -/
def ctrl (x : Nat) : Byte := BitVec.ofNat 8 (x - 64)

def ctrlD : Byte := ctrl 68
def ctrlH : Byte := ctrl 72
def ctrlP : Byte := ctrl 80
def ctrlU : Byte := ctrl 85
def delete : Byte := 127
def carriageReturn : Byte := 13

/-- `input.buf[i % INPUT_BUF]`. -/
def Input.cell (s : Input) (i : Word) : Byte := s.buf (i.toNat % INPUT_BUF)

/-- The loop of ^U, which ends at `input.w` at the latest. -/
def Input.killLine : Nat → Input → Input
  | 0, s => s
  | k + 1, s =>
    if s.e ≠ s.w ∧ s.cell (s.e - 1) ≠ newline then Input.killLine k { s with e := s.e - 1 }
    else s

/-- `c = (c == '\r') ? '\n' : c`. -/
def mapReturn (c : Byte) : Byte := if c = carriageReturn then newline else c

/-- `input.buf[input.e++ % INPUT_BUF] = c`. -/
def Input.store (s : Input) (c : Byte) : Input :=
  { s with buf := update s.buf (s.e.toNat % INPUT_BUF) c, e := s.e + 1 }

/-- One character of `consoleintr`; the flag says that the readers are woken. -/
def Input.key (s : Input) (c : Byte) : Input × Bool :=
  if c = ctrlP then (s, false)
  else if c = ctrlU then (s.killLine (s.e - s.w).toNat, false)
  else if c = ctrlH ∨ c = delete then (if s.e ≠ s.w then { s with e := s.e - 1 } else s, false)
  else if c ≠ 0 ∧ (s.e - s.r).toNat < INPUT_BUF then
    let c := mapReturn c
    let s := s.store c
    if c = newline ∨ c = ctrlD ∨ s.e = s.r + BitVec.ofNat 32 INPUT_BUF then
      ({ s with w := s.e }, true)
    else (s, false)
  else (s, false)

/-- A read: not called yet, inside the loop with `n` bytes to go, or returned. -/
inductive Reader where
  | idle
  | reading (target n : Nat) (dst : List Byte) (asleep : Bool)
  | returned (value : Int) (dst : List Byte)
deriving DecidableEq, Repr

/-- The loop of `consoleread` up to its sleep or its return, and the characters it consumed. -/
def readLoop (killed : Bool) (target : Nat) : Nat → List Byte → Input → Reader × Input × List Byte
  | 0, dst, s => (.returned target dst, s, [])
  | n + 1, dst, s =>
    if s.r = s.w then
      (if killed then .returned (-1) dst else .reading target (n + 1) dst true, s, [])
    else
      let c := s.cell s.r
      let s := { s with r := s.r + 1 }
      if c = ctrlD then
        if n + 1 < target then
          -- saved for the next read
          (.returned ((target : Int) - (n + 1 : Nat)) dst, { s with r := s.r - 1 }, [])
        else (.returned ((target : Int) - (n + 1 : Nat)) dst, s, [c])
      else if c = newline then (.returned ((target : Int) - n) (dst ++ [c]), s, [c])
      else
        let next := readLoop killed target n (dst ++ [c]) s
        (next.1, next.2.1, c :: next.2.2)

/-! ### The rules of line editing -/

/-- The characters committed so far, and the line that is being edited. -/
structure Editor where
  committed : List Byte
  line : List Byte

/-- Backspace and ^U remove from the line; a newline, ^D or the last free place commits it.
    `unread` of the committed characters take up room. -/
def Editor.key (unread : Nat) (t : Editor) (c : Byte) : Editor :=
  if c = ctrlP then t
  else if c = ctrlU then { t with line := [] }
  else if c = ctrlH ∨ c = delete then { t with line := t.line.dropLast }
  else if c ≠ 0 ∧ unread + t.line.length < INPUT_BUF then
    let line := t.line ++ [mapReturn c]
    if mapReturn c = newline ∨ mapReturn c = ctrlD ∨ unread + line.length = INPUT_BUF then
      ⟨t.committed ++ line, []⟩
    else { t with line := line }
  else t

/-! ### The system -/

/-- The input and the reads, each under a number of its own; `typed` and `log` are not in the
    kernel. -/
structure State where
  input : Input
  reader : Nat → Reader
  typed : Editor
  log : List (Nat × Byte)

/-- An empty buffer, with the indices anywhere. -/
def State.init (buf : Nat → Byte) (i : Word) : State where
  input := ⟨buf, i, i, i⟩
  reader _ := .idle
  typed := ⟨[], []⟩
  log := []

def Reader.wake : Reader → Reader
  | .reading target n dst _ => .reading target n dst false
  | x => x

def State.key (s : State) (c : Byte) : State :=
  let next := s.input.key c
  { s with
    input := next.1
    reader := if next.2 then fun k => (s.reader k).wake else s.reader
    typed := s.typed.key (s.typed.committed.length - s.log.length) c }

def consoleintr (s : State) (cs : List Byte) : State := cs.foldl State.key s

/-- A stretch of `consoleread`; a reader that sleeps or has returned does not run. -/
def consoleread (s : State) (k : Nat) (killed : Bool) : State :=
  match s.reader k with
  | .reading target n dst false =>
    let next := readLoop killed target n dst s.input
    { s with
      input := next.2.1
      reader := update s.reader k next.1
      log := s.log ++ next.2.2.map fun c => (k, c) }
  | _ => s

inductive Event where
  | typed (cs : List Byte)
  | call (k n : Nat)
  | run (k : Nat) (killed : Bool)
deriving DecidableEq, Repr

def State.step (s : State) : Event → State
  | .typed cs => consoleintr s cs
  | .call k n =>
    match s.reader k with
    | .idle => { s with reader := update s.reader k (.reading n n [] false) }
    | _ => s
  | .run k killed => consoleread s k killed

def State.steps (s : State) (es : List Event) : State := es.foldl State.step s

/-! ### The ring -/

theorem INPUT_BUF_lt : INPUT_BUF < 2 ^ 32 := by decide

theorem INPUT_BUF_dvd : INPUT_BUF ∣ 2 ^ 32 := by decide

/-- The ring holds the committed characters that were not read, then the line. -/
structure Queue (s : Input) (ready line : List Byte) : Prop where
  holds : Holds INPUT_BUF s.buf s.r s.e (ready ++ line)
  commit : s.w = s.r + BitVec.ofNat 32 ready.length

variable {s : Input} {ready line : List Byte} {c : Byte}

theorem Queue.length_le (h : Queue s ready line) : ready.length + line.length ≤ INPUT_BUF := by
  have hlen := h.holds.length
  rwa [List.length_append] at hlen

theorem Queue.ready_length (h : Queue s ready line) : (s.w - s.r).toNat = ready.length := by
  have hle := h.length_le
  have hlt := INPUT_BUF_lt
  rw [h.commit, BitVec.add_comm, BitVec.add_sub_cancel, BitVec.toNat_ofNat]
  exact Nat.mod_eq_of_lt (by omega)

theorem Queue.line_length (h : Queue s ready line) : (s.e - s.w).toNat = line.length := by
  have hle := h.length_le
  have hlt := INPUT_BUF_lt
  rw [h.holds.tail, h.commit, List.length_append, BitVec.ofNat_add, ← BitVec.add_assoc,
    BitVec.add_comm, BitVec.add_sub_cancel, BitVec.toNat_ofNat]
  exact Nat.mod_eq_of_lt (by omega)

theorem Queue.length (h : Queue s ready line) :
    (s.e - s.r).toNat = ready.length + line.length := by
  rw [h.holds.sub_eq INPUT_BUF_lt, List.length_append]

theorem Queue.order (h : Queue s ready line) :
    (s.w - s.r).toNat ≤ (s.e - s.r).toNat ∧ (s.e - s.r).toNat ≤ INPUT_BUF := by
  rw [h.ready_length, h.length]
  exact ⟨Nat.le_add_right _ _, h.length_le⟩

theorem Queue.line_nil_iff (h : Queue s ready line) : s.e = s.w ↔ line = [] := by
  have hlen := h.line_length
  constructor
  · intro heq
    rw [heq, BitVec.sub_self] at hlen
    exact List.length_eq_zero_iff.1 hlen.symm
  · intro hnil
    rw [h.holds.tail, h.commit, hnil, List.append_nil]

theorem Queue.ready_nil_iff (h : Queue s ready line) : s.r = s.w ↔ ready = [] := by
  have hlen := h.ready_length
  constructor
  · intro heq
    rw [heq, BitVec.sub_self] at hlen
    exact List.length_eq_zero_iff.1 hlen.symm
  · intro hnil
    rw [h.commit, hnil]
    exact (BitVec.add_zero _).symm

theorem Queue.erase (h : Queue s ready (line ++ [c])) :
    Queue { s with e := s.e - 1 } ready line ∧ s.cell (s.e - 1) = c := by
  have hholds := h.holds
  rw [← List.append_assoc] at hholds
  exact ⟨⟨hholds.retract, h.commit⟩, hholds.last INPUT_BUF_dvd⟩

theorem Queue.killLine (h : Queue s ready line) (hline : newline ∉ line) :
    Queue (s.killLine line.length) ready [] := by
  induction line using List.reverseRecOn generalizing s with
  | nil => exact h
  | append_singleton front c ih =>
    obtain ⟨herase, hcell⟩ := h.erase
    have hne : s.e ≠ s.w := fun heq => absurd (h.line_nil_iff.1 heq) (by simp)
    have hc : s.cell (s.e - 1) ≠ newline := by
      rw [hcell]
      rintro rfl
      exact hline (List.mem_append_right _ (List.mem_singleton.2 rfl))
    rw [List.length_append, List.length_singleton, Input.killLine, if_pos ⟨hne, hc⟩]
    exact ih herase fun hmem => hline (List.mem_append_left _ hmem)

theorem Queue.store (h : Queue s ready line) (hroom : ready.length + line.length < INPUT_BUF) :
    Queue (s.store c) ready (line ++ [c]) := by
  refine ⟨?_, h.commit⟩
  rw [← List.append_assoc]
  exact h.holds.push INPUT_BUF_dvd (by rwa [List.length_append]) c

/-- `input.w = input.e`. -/
theorem Queue.commitLine (h : Queue s ready line) :
    Queue { s with w := s.e } (ready ++ line) [] := by
  refine ⟨?_, h.holds.tail⟩
  rw [List.append_nil]
  exact h.holds

theorem Queue.full_iff (h : Queue s ready line) :
    s.e = s.r + BitVec.ofNat 32 INPUT_BUF ↔ ready.length + line.length = INPUT_BUF := by
  rw [h.holds.full_iff INPUT_BUF_lt, List.length_append]

theorem Queue.take (h : Queue s (c :: ready) line) :
    s.cell s.r = c ∧ Queue { s with r := s.r + 1 } ready line := by
  refine ⟨h.holds.front, h.holds.pop INPUT_BUF_dvd, ?_⟩
  rw [h.commit, List.length_cons, Nat.add_comm, BitVec.ofNat_add, ← BitVec.add_assoc]
  rfl

/-! ### Typing -/

/-- The characters that end a line. -/
def IsBreak (c : Byte) : Prop := c = newline ∨ c = ctrlD

instance : DecidablePred IsBreak := fun c => inferInstanceAs (Decidable (c = newline ∨ c = ctrlD))

/-- The ring holds what the rules of line editing say. -/
structure Represents (s : Input) (t : Editor) (taken : List Byte) : Prop where
  queue : ∃ ready, t.committed = taken ++ ready ∧ Queue s ready t.line
  line : ∀ c ∈ t.line, ¬ IsBreak c

theorem Represents.key {t : Editor} {taken : List Byte} (h : Represents s t taken) (c : Byte) :
    Represents (s.key c).1 (t.key (t.committed.length - taken.length) c) taken := by
  obtain ⟨⟨ready, hready, hq⟩, hline⟩ := h
  have hunread : t.committed.length - taken.length = ready.length := by
    rw [hready, List.length_append, Nat.add_sub_cancel_left]
  rw [hunread, Input.key, Editor.key]
  split
  · exact ⟨⟨ready, hready, hq⟩, hline⟩
  split
  · refine ⟨⟨ready, hready, ?_⟩, List.forall_mem_nil _⟩
    rw [hq.line_length]
    exact hq.killLine fun hmem => hline _ hmem (.inl rfl)
  split
  · refine ⟨⟨ready, hready, ?_⟩, fun c hc => hline c (List.dropLast_subset _ hc)⟩
    rcases List.eq_nil_or_concat t.line with hnil | ⟨front, x, heq⟩
    · rw [if_neg (not_not_intro (hq.line_nil_iff.2 hnil)), hnil]
      rw [hnil] at hq
      exact hq
    · have hne : s.e ≠ s.w := fun hew => absurd (hq.line_nil_iff.1 hew) (by simp [heq])
      rw [heq, List.concat_eq_append] at hq
      rw [if_pos hne, heq, List.concat_eq_append, List.dropLast_concat]
      exact hq.erase.1
  rw [hq.length]
  split
  · rename_i hstore
    have hq' := hq.store (c := mapReturn c) hstore.2
    have hlen : ready.length + (t.line ++ [mapReturn c]).length = INPUT_BUF ↔
        (s.store (mapReturn c)).e = (s.store (mapReturn c)).r + BitVec.ofNat 32 INPUT_BUF :=
      hq'.full_iff.symm
    simp only [hlen]
    split
    · refine ⟨⟨ready ++ (t.line ++ [mapReturn c]), ?_, hq'.commitLine⟩, List.forall_mem_nil _⟩
      rw [hready, List.append_assoc]
    · rename_i hopen
      refine ⟨⟨ready, hready, hq'⟩, fun x hx => ?_⟩
      rcases List.mem_append.1 hx with hx | hx
      · exact hline x hx
      · rw [List.mem_singleton.1 hx]
        exact fun hbreak => hopen (hbreak.imp id .inl)
  · exact ⟨⟨ready, hready, hq⟩, hline⟩

/-! ### Reading -/

/-- What a read has to do with the characters `mine` it consumed: as long as it is in its loop
    they are the bytes it has, without a line end; it returns them, with a newline at the end at
    most, or it returns 0 and consumed ^D. -/
def Reader.Fits (mine : List Byte) : Reader → Prop
  | .idle => mine = []
  | .reading target n dst _ =>
    mine = dst ∧ dst.length + n = target ∧ 0 < n ∧ ∀ c ∈ dst, ¬ IsBreak c
  | .returned value dst =>
    value = dst.length ∧
      ((dst = [] ∧ mine = [ctrlD]) ∨
        (dst ≠ [] ∧ mine = dst ∧ ctrlD ∉ dst ∧ newline ∉ dst.dropLast))

theorem readLoop_spec {target n : Nat} {dst : List Byte} (hq : Queue s ready line)
    (hfits : Reader.Fits dst (.reading target n dst false)) :
    ∃ ready', ready = (readLoop false target n dst s).2.2 ++ ready' ∧
      Queue (readLoop false target n dst s).2.1 ready' line ∧
      (readLoop false target n dst s).1.Fits (dst ++ (readLoop false target n dst s).2.2) := by
  induction n generalizing dst s ready with
  | zero => exact absurd hfits.2.2.1 (by omega)
  | succ n ih =>
    obtain ⟨-, hlen, -, hclean⟩ := hfits
    rw [readLoop]
    by_cases hempty : s.r = s.w
    · rw [if_pos hempty]
      exact ⟨ready, rfl, hq, List.append_nil _, hlen, Nat.succ_pos n, hclean⟩
    rw [if_neg hempty]
    cases ready with
    | nil => exact absurd (hq.ready_nil_iff.2 rfl) hempty
    | cons c ready =>
      obtain ⟨hcell, htake⟩ := hq.take
      simp only [hcell]
      by_cases hd : c = ctrlD
      · rw [if_pos hd]
        by_cases hmore : n + 1 < target
        · rw [if_pos hmore]
          have hback : s.r + 1 - 1 = s.r := BitVec.add_sub_cancel _ _
          rw [hback]
          refine ⟨c :: ready, rfl, hq, ?_, .inr ⟨?_, List.append_nil _, ?_, ?_⟩⟩
          · omega
          · rintro rfl
            rw [List.length_nil] at hlen
            omega
          · exact fun hmem => hclean _ hmem (.inr rfl)
          · exact fun hmem => hclean _ (List.dropLast_subset _ hmem) (.inl rfl)
        · rw [if_neg hmore]
          have hnil : dst = [] := List.length_eq_zero_iff.1 (by omega)
          subst hnil hd
          refine ⟨ready, rfl, htake, ?_, .inl ⟨rfl, rfl⟩⟩
          simp only [List.length_nil] at hlen ⊢
          omega
      rw [if_neg hd]
      by_cases hnl : c = newline
      · rw [if_pos hnl]
        refine ⟨ready, rfl, htake, ?_, .inr ⟨by simp, rfl, ?_, ?_⟩⟩
        · rw [List.length_append, List.length_singleton]
          omega
        · intro hmem
          rcases List.mem_append.1 hmem with hmem | hmem
          · exact hclean _ hmem (.inr rfl)
          · exact hd (List.mem_singleton.1 hmem).symm
        · rw [List.dropLast_concat]
          exact fun hmem => hclean _ hmem (.inl rfl)
      rw [if_neg hnl]
      have hclean' : ∀ x ∈ dst ++ [c], ¬ IsBreak x := by
        intro x hx
        rcases List.mem_append.1 hx with hx | hx
        · exact hclean x hx
        · rw [List.mem_singleton.1 hx]
          exact not_or.2 ⟨hnl, hd⟩
      have hlen' : (dst ++ [c]).length + n = target := by
        rw [List.length_append, List.length_singleton]
        omega
      cases n with
      | zero =>
        refine ⟨ready, rfl, htake, ?_, .inr ⟨by simp, rfl, ?_, ?_⟩⟩
        · rw [Nat.add_zero] at hlen'
          rw [hlen']
        · exact fun hmem => hclean' _ hmem (.inr rfl)
        · exact fun hmem => hclean' _ (List.dropLast_subset _ hmem) (.inl rfl)
      | succ n =>
        obtain ⟨ready', heq, hq', hfits'⟩ := ih htake ⟨rfl, hlen', Nat.succ_pos n, hclean'⟩
        rw [← List.append_cons] at hfits'
        exact ⟨ready', congrArg (c :: ·) heq, hq', hfits'⟩

/-! ### Runs -/

/-- The characters that read `k` consumed. -/
def mine (k : Nat) (log : List (Nat × Byte)) : List Byte :=
  (log.filter fun x => x.1 = k).map Prod.snd

/-- The ring holds what was typed and not consumed, and every read fits what it consumed. -/
structure Inv (s : State) : Prop where
  ring : Represents s.input s.typed (s.log.map Prod.snd)
  reads : ∀ k, (s.reader k).Fits (mine k s.log)

/-- Reads ask for bytes, and their processes are not killed. -/
def Event.Plain : Event → Prop
  | .typed _ => True
  | .call _ n => 0 < n
  | .run _ killed => killed = false

variable {σ σ' : State} {k : Nat}

theorem Inv.init (buf : Nat → Byte) (i : Word) : Inv (State.init buf i) where
  ring := ⟨⟨[], rfl, Holds.empty _ _ _, (BitVec.add_zero _).symm⟩, List.forall_mem_nil _⟩
  reads _ := rfl

theorem Reader.Fits.wake {x : Reader} {l : List Byte} (h : x.Fits l) : x.wake.Fits l := by
  cases x with
  | idle => exact h
  | reading target n dst asleep => exact h
  | returned value dst => exact h

theorem Inv.key (h : Inv σ) (c : Byte) : Inv (σ.key c) := by
  refine ⟨?_, fun k => ?_⟩
  · have hkey := h.ring.key c
    rw [List.length_map] at hkey
    exact hkey
  · simp only [State.key]
    split
    · exact (h.reads k).wake
    · exact h.reads k

theorem Inv.typed (h : Inv σ) (cs : List Byte) : Inv (consoleintr σ cs) := by
  induction cs generalizing σ with
  | nil => exact h
  | cons c cs ih => exact ih (h.key c)

theorem map_snd_tagged (k : Nat) (cs : List Byte) :
    (cs.map fun c => (k, c)).map Prod.snd = cs := by
  rw [List.map_map]
  exact List.map_id cs

theorem mine_append_self (l : List (Nat × Byte)) (cs : List Byte) :
    mine k (l ++ cs.map fun c => (k, c)) = mine k l ++ cs := by
  have hall : (cs.map fun c => (k, c)).filter (fun x => decide (x.1 = k)) =
      cs.map fun c => (k, c) := by simp_all
  rw [mine, List.filter_append, List.map_append, hall, map_snd_tagged, mine]

theorem mine_append_other {q : Nat} (hq : q ≠ k) (l : List (Nat × Byte)) (cs : List Byte) :
    mine q (l ++ cs.map fun c => (k, c)) = mine q l := by
  grind [mine, List.filter_eq_nil_iff]

theorem Inv.run (h : Inv σ) (k : Nat) : Inv (consoleread σ k false) := by
  rw [consoleread]
  split
  · rename_i target n dst hk
    have hfits := h.reads k
    rw [hk] at hfits
    obtain ⟨⟨ready, hready, hq⟩, hline⟩ := h.ring
    obtain ⟨ready', hsplit, hq', hnext⟩ := readLoop_spec hq ⟨rfl, hfits.2⟩
    refine ⟨⟨⟨ready', ?_, hq'⟩, hline⟩, fun q => ?_⟩
    · rw [hready, hsplit, List.map_append, map_snd_tagged, List.append_assoc]
    · by_cases hqk : q = k
      · subst hqk
        simp only [update_self, mine_append_self, hfits.1]
        exact hnext
      · simp only [update_of_ne hqk, mine_append_other hqk]
        exact h.reads q
  · exact h

theorem Inv.step (h : Inv σ) {e : Event} (he : e.Plain) : Inv (σ.step e) := by
  cases e with
  | typed cs => exact h.typed cs
  | call k n =>
    rw [State.step]
    split
    · rename_i hk
      have hidle := h.reads k
      rw [hk] at hidle
      refine ⟨h.ring, fun q => ?_⟩
      by_cases hq : q = k
      · subst hq
        simp only [update_self]
        exact ⟨hidle, Nat.zero_add n, he, List.forall_mem_nil _⟩
      · simp only [update_of_ne hq]
        exact h.reads q
    · exact h
  | run k killed =>
    obtain rfl : killed = false := he
    exact h.run k

/-! ### Line ends between the bytes of a read -/

/-- No read consumed characters both before, or at, and after a newline or ^D. -/
def Unbroken (log : List (Nat × Byte)) : Prop :=
  ∀ l₁ l₂ x, log = l₁ ++ x :: l₂ → IsBreak x.2 → ∀ k, mine k (l₁ ++ [x]) ≠ [] → mine k l₂ = []

/-- Since read `k` consumed its first character, no newline and no ^D was consumed. -/
def Fresh (k : Nat) (log : List (Nat × Byte)) : Prop :=
  ∀ l₁ l₂ x, log = l₁ ++ x :: l₂ → IsBreak x.2 → mine k (l₁ ++ [x]) = []

theorem mine_append (k : Nat) (l1 l2 : List (Nat × Byte)) :
    mine k (l1 ++ l2) = mine k l1 ++ mine k l2 := by
  rw [mine, List.filter_append, List.map_append, mine, mine]

variable {log : List (Nat × Byte)} {cs : List Byte}

theorem fresh_of_none (h : mine k log = []) : Fresh k log := by
  rintro l1 l2 x rfl -
  rw [List.append_cons, mine_append] at h
  exact (List.append_eq_nil_iff.1 h).1

theorem tail_nil {l1 l2 : List (Nat × Byte)} {x : Nat × Byte}
    (hcs : ∀ c ∈ cs.dropLast, ¬ IsBreak c) (heq : cs.map (fun c => (k, c)) = l1 ++ x :: l2)
    (hx : IsBreak x.2) : l2 = [] := by
  have hsnd : cs = l1.map Prod.snd ++ x.2 :: l2.map Prod.snd := by
    rw [← map_snd_tagged k cs, heq, List.map_append, List.map_cons]
  by_contra hne
  refine hcs x.2 ?_ hx
  have hne' : x.2 :: l2.map Prod.snd ≠ [] := List.cons_ne_nil _ _
  rw [hsnd, List.dropLast_append_of_ne_nil hne',
    List.dropLast_cons_of_ne_nil (by simpa using hne)]
  exact List.mem_append_right _ List.mem_cons_self

/-- Read `k` consumes more; what it has already comes after the last line end. -/
theorem Unbroken.append (h : Unbroken log) (hk : Fresh k log)
    (hcs : ∀ c ∈ cs.dropLast, ¬ IsBreak c) : Unbroken (log ++ cs.map fun c => (k, c)) := by
  intro l1 l2 x heq hx q hq
  rcases List.append_eq_append_iff.1 heq with ⟨a, -, hnew⟩ | ⟨a, hlog, hrest⟩
  · rw [tail_nil hcs hnew hx]
    rfl
  · cases a with
    | nil =>
      rw [tail_nil hcs (show _ = [] ++ x :: l2 from hrest.symm) hx]
      rfl
    | cons y a =>
      rw [List.cons_append] at hrest
      obtain ⟨rfl, rfl⟩ := List.cons.inj hrest
      by_cases hqk : q = k
      · subst hqk
        exact absurd (hk l1 a x hlog hx) hq
      · rw [mine_append_other hqk]
        exact h l1 a x hlog hx q hq

theorem Fresh.append (h : Fresh k log) (hcs : ∀ c ∈ cs, ¬ IsBreak c) :
    Fresh k (log ++ cs.map fun c => (k, c)) := by
  intro l1 l2 x heq hx
  have hnew : ∀ y ∈ cs.map fun c => (k, c), ¬ IsBreak y.2 := by grind
  rcases List.append_eq_append_iff.1 heq with ⟨a, -, htail⟩ | ⟨a, hlog, hrest⟩
  · exact absurd hx (hnew x (htail ▸ List.mem_append_right _ List.mem_cons_self))
  · cases a with
    | nil => grind
    | cons y a =>
      obtain ⟨rfl, -⟩ := List.cons.inj hrest
      exact h l1 a x hlog hx

/-- The bytes a read has and did not return. -/
def Reader.got : Reader → List Byte
  | .reading _ _ dst _ => dst
  | _ => []

/-- No other read that has bytes is still in its loop. -/
def Event.Alone (s : State) : Event → Prop
  | .run k _ => ∀ q, q ≠ k → (s.reader q).got = []
  | _ => True

structure Whole (s : State) : Prop where
  unbroken : Unbroken s.log
  fresh : ∀ k, (s.reader k).got ≠ [] → Fresh k s.log

theorem Reader.got_wake (x : Reader) : x.wake.got = x.got := by
  cases x <;> rfl

theorem Whole.key (h : Whole σ) (c : Byte) : Whole (σ.key c) := by
  refine ⟨h.unbroken, fun k hk => h.fresh k fun hnil => hk ?_⟩
  simp only [State.key]
  split
  · rw [Reader.got_wake, hnil]
  · exact hnil

theorem Whole.typed (h : Whole σ) (cs : List Byte) : Whole (consoleintr σ cs) := by
  induction cs generalizing σ with
  | nil => exact h
  | cons c cs ih => exact ih (h.key c)

theorem Reader.Fits.inner {x : Reader} {dst : List Byte} (h : x.Fits (dst ++ cs)) :
    ∀ c ∈ cs.dropLast, ¬ IsBreak c := by
  intro c hc
  have hne : cs ≠ [] := by
    rintro rfl
    cases hc
  have hmem : c ∈ (dst ++ cs).dropLast := by
    rw [List.dropLast_append_of_ne_nil hne]
    exact List.mem_append_right _ hc
  cases x with
  | idle =>
    have hnil : dst ++ cs = [] := h
    rw [hnil] at hmem
    cases hmem
  | reading target n dst' asleep =>
    obtain ⟨heq, -, -, hclean⟩ := h
    rw [heq] at hmem
    exact hclean c (List.dropLast_subset _ hmem)
  | returned value dst' =>
    rcases h.2 with ⟨-, heq⟩ | ⟨-, heq, hd, hnl⟩
    · rw [heq] at hmem
      cases hmem
    · rw [heq] at hmem
      rintro (rfl | rfl)
      · exact hnl hmem
      · exact hd (List.dropLast_subset _ hmem)

theorem Whole.run (h : Whole σ) (hi : Inv σ) (halone : (Event.run k false).Alone σ) :
    Whole (consoleread σ k false) := by
  rw [consoleread]
  split
  · rename_i target n dst hk
    have hfits := hi.reads k
    rw [hk] at hfits
    obtain ⟨ready, -, hq⟩ := hi.ring.queue
    obtain ⟨ready', -, -, hnext⟩ := readLoop_spec hq ⟨rfl, hfits.2⟩
    have hfresh : Fresh k σ.log := by
      by_cases hdst : dst = []
      · exact fresh_of_none (hfits.1.trans hdst)
      · refine h.fresh k ?_
        rw [hk]
        exact hdst
    refine ⟨h.unbroken.append hfresh hnext.inner, fun q hq' => ?_⟩
    by_cases hqk : q = k
    · subst hqk
      simp only [update_self] at hq'
      cases hx : (readLoop false target n dst σ.input).1 with
      | reading target' n' dst' asleep =>
        rw [hx] at hnext
        refine hfresh.append fun c hc => hnext.2.2.2 c ?_
        rw [← hnext.1]
        exact List.mem_append_right _ hc
      | idle =>
        rw [hx] at hq'
        exact absurd rfl hq'
      | returned value dst' =>
        rw [hx] at hq'
        exact absurd rfl hq'
    · simp only [update_of_ne hqk] at hq'
      exact absurd (halone q hqk) hq'
  · exact h

theorem Whole.step (h : Whole σ) (hi : Inv σ) {e : Event} (he : e.Plain) (halone : e.Alone σ) :
    Whole (σ.step e) := by
  cases e with
  | typed cs => exact h.typed cs
  | call k n =>
    rw [State.step]
    split
    · refine ⟨h.unbroken, fun q hq => ?_⟩
      by_cases hqk : q = k
      · subst hqk
        simp only [update_self] at hq
        exact absurd rfl hq
      · simp only [update_of_ne hqk] at hq
        exact h.fresh q hq
    · exact h
  | run k killed =>
    obtain rfl : killed = false := he
    exact h.run hi halone

/-- Every event is plain, and no read runs while another one sleeps with bytes. -/
def State.Orderly : State → List Event → Prop
  | _, [] => True
  | s, e :: es => (e.Plain ∧ e.Alone s) ∧ State.Orderly (s.step e) es

theorem steps_inv {es : List Event} (hi : Inv σ) (h : Whole σ) (hes : σ.Orderly es) :
    Inv (σ.steps es) ∧ Whole (σ.steps es) := by
  induction es generalizing σ with
  | nil => exact ⟨hi, h⟩
  | cons e es ih =>
    obtain ⟨⟨hplain, halone⟩, hrest⟩ := hes
    exact ih (hi.step hplain) (h.step hi hplain halone) hrest

/-- In every run in which no read takes characters while another one sleeps with bytes: the
    indices are in order; the ring holds the committed characters that were not consumed and
    then the line; every read returns what it consumed, or 0 for ^D; and no read has
    characters from both sides of a line end. -/
theorem console_line_discipline (buf : Nat → Byte) (i : Word) (es : List Event)
    (hes : (State.init buf i).Orderly es) :
    let s := (State.init buf i).steps es
    ((s.input.w - s.input.r).toNat ≤ (s.input.e - s.input.r).toNat ∧
      (s.input.e - s.input.r).toNat ≤ INPUT_BUF) ∧
    (∃ ready, s.typed.committed = s.log.map Prod.snd ++ ready ∧
      Queue s.input ready s.typed.line) ∧
    (∀ k, (s.reader k).Fits (mine k s.log)) ∧ Unbroken s.log := by
  have hwhole : Whole (State.init buf i) := by
    refine ⟨fun l₁ l₂ x heq => ?_, fun k hk => absurd rfl hk⟩
    exact absurd heq (by simp [State.init])
  obtain ⟨hi, h⟩ := steps_inv (Inv.init buf i) hwhole hes
  obtain ⟨ready, hready, hq⟩ := hi.ring.queue
  exact ⟨hq.order, ⟨ready, hready, hq⟩, hi.reads, h.unbroken⟩

/-- The event is typing, or belongs to read `k`. -/
def Event.Of (k : Nat) : Event → Prop
  | .typed _ => True
  | .call q _ => q = k
  | .run q _ => q = k

theorem idle_key {q : Nat} (h : σ.reader q = .idle) (c : Byte) : (σ.key c).reader q = .idle := by
  grind [State.key, Reader.wake]

theorem idle_step {q : Nat} {e : Event} (he : e.Of k) (hq : q ≠ k) (h : σ.reader q = .idle) :
    (σ.step e).reader q = .idle := by
  cases e with
  | typed cs =>
    rw [State.step, consoleintr]
    induction cs generalizing σ with
    | nil => exact h
    | cons c cs ih => exact ih (idle_key h c) trivial
  | call p n =>
    obtain rfl : p = k := he
    rw [State.step]
    split
    · exact (update_of_ne hq _ _).trans h
    · exact h
  | run p killed =>
    obtain rfl : p = k := he
    rw [State.step, consoleread]
    split
    · exact (update_of_ne hq _ _).trans h
    · exact h

theorem orderly_single {es : List Event} (hes : ∀ e ∈ es, e.Plain ∧ e.Of k)
    (h : ∀ q, q ≠ k → σ.reader q = .idle) : σ.Orderly es := by
  induction es generalizing σ with
  | nil => trivial
  | cons e es ih =>
    obtain ⟨hplain, hof⟩ := hes e List.mem_cons_self
    refine ⟨⟨hplain, ?_⟩, ih (fun x hx => hes x (List.mem_cons_of_mem _ hx))
      fun q hq => idle_step hof hq (h q hq)⟩
    cases e with
    | typed cs => trivial
    | call p n => trivial
    | run p killed =>
      obtain rfl : p = k := hof
      intro q hq
      rw [h q hq]
      rfl

/-- A line with a correction. -/
def oneReader : List Event :=
  [.call 0 10, .run 0 false, .typed [104, 120, 8, 105, 13], .run 0 false]

theorem console_line_discipline_one_reader :
    let s := (State.init (fun _ => 0) 0).steps oneReader
    s.typed.committed = [104, 105, 10] ∧ s.reader 0 = .returned 3 [104, 105, 10] ∧
      Unbroken s.log := by
  have hes : (State.init (fun _ => 0) 0).Orderly oneReader := by
    refine orderly_single (k := 0) ?_ fun q _ => rfl
    simp [oneReader, Event.Plain, Event.Of]
  exact ⟨by decide +kernel, by decide +kernel, (console_line_discipline _ _ _ hes).2.2.2⟩

/-- Read 0 takes a full buffer and sleeps; read 1 takes a line; read 0 goes on after it. -/
def twoReaders : List Event :=
  [.call 0 200, .typed (List.replicate 128 97), .run 0 false, .call 1 10, .typed [120, 10],
    .run 1 false, .run 0 false, .typed [121, 10], .run 0 false]

theorem read_across_newline :
    let s := (State.init (fun _ => 0) 0).steps twoReaders
    (∀ e ∈ twoReaders, e.Plain) ∧ s.reader 1 = .returned 2 [120, 10] ∧
      s.reader 0 = .returned 130 (List.replicate 128 97 ++ [121, 10]) ∧ ¬ Unbroken s.log := by
  have hlog : ((State.init (fun _ => 0) 0).steps twoReaders).log =
      (List.replicate 128 (0, 97) ++ [(1, 120)]) ++ (1, 10) :: [(0, 121), (0, 10)] := by
    decide +kernel
  refine ⟨?_, by decide +kernel, by decide +kernel, fun h => ?_⟩
  · simp [twoReaders, Event.Plain]
  · have hnone := h _ _ _ hlog (Or.inl rfl) 0 (by decide +kernel)
    exact absurd hnone (by decide)

end CowPaging.Console
