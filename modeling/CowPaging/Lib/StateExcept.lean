import Mathlib.Logic.Basic

/-!
# Weakest preconditions for state with exceptions

A computation `m : StateT σ (Except ε) α` either returns a value with a new
state or stops with an exception and no state. `wp m s Q E` says that running
`m` from `s` ends in a result that satisfies `Q` or in an exception that
satisfies `E`. The rules below follow the constructors of the monad, so that a
proof about a program text follows that text; `loopFrom` is the counted loop,
with its invariant rule. `Leaves` is the case of a frame: what a computation does
not touch, composed along the text. `Draws` counts what is taken from a supply.
`StopsOr` and `Follows` compare two computations, the first of which may give up where the
second goes on.
-/

namespace StateExcept

variable {σ ε α β : Type}

/-- Running `m` from `s` gives a result satisfying `Q`, or an exception
    satisfying `E`. -/
def wp (m : StateT σ (Except ε) α) (s : σ) (Q : α → σ → Prop) (E : ε → Prop) : Prop :=
  match m s with
  | .ok (a, s') => Q a s'
  | .error e => E e

variable {s : σ} {Q : α → σ → Prop} {R : β → σ → Prop} {E : ε → Prop}

@[simp] theorem wp_pure (a : α) :
    wp (pure a : StateT σ (Except ε) α) s Q E ↔ Q a s := Iff.rfl

@[simp] theorem wp_bind (m : StateT σ (Except ε) α) (f : α → StateT σ (Except ε) β) :
    wp (m >>= f) s R E ↔ wp m s (fun a s' => wp (f a) s' R E) E := by
  simp only [wp, bind, StateT.bind, Except.bind]
  cases m s <;> rfl

@[simp] theorem wp_get {Q : σ → σ → Prop} :
    wp (get : StateT σ (Except ε) σ) s Q E ↔ Q s s := Iff.rfl

@[simp] theorem wp_set {Q : PUnit → σ → Prop} (s' : σ) :
    wp (set s' : StateT σ (Except ε) PUnit) s Q E ↔ Q ⟨⟩ s' := Iff.rfl

@[simp] theorem wp_modify {Q : PUnit → σ → Prop} (f : σ → σ) :
    wp (modify f : StateT σ (Except ε) PUnit) s Q E ↔ Q ⟨⟩ (f s) := Iff.rfl

theorem wp_ite {c : Prop} [Decidable c] {m n : StateT σ (Except ε) α}
    (hm : c → wp m s Q E) (hn : ¬ c → wp n s Q E) :
    wp (if c then m else n) s Q E := by grind

theorem wp_mono {m : StateT σ (Except ε) α} {Q' : α → σ → Prop} {E' : ε → Prop}
    (h : wp m s Q E) (hQ : ∀ a s', Q a s' → Q' a s') (hE : ∀ e, E e → E' e) :
    wp m s Q' E' := by grind [wp]

theorem wp_conseq {m : StateT σ (Except ε) α} {Q' : α → σ → Prop}
    (h : wp m s Q E) (hQ : ∀ a s', Q a s' → Q' a s') : wp m s Q' E :=
  wp_mono h hQ fun _ he => he

theorem wp_ok {m : StateT σ (Except ε) α} {a : α} {s' : σ}
    (h : wp m s Q E) (hm : m s = .ok (a, s')) : Q a s' := by
  unfold wp at h; rw [hm] at h; exact h

theorem wp_error {m : StateT σ (Except ε) α} {e : ε}
    (h : wp m s Q E) (hm : m s = .error e) : E e := by
  unfold wp at h; rw [hm] at h; exact h

theorem wp_conseq_ok {m : StateT σ (Except ε) α} {Q' : α → σ → Prop} (h : wp m s Q E)
    (hQ : ∀ a s', m s = .ok (a, s') → Q a s' → Q' a s') : wp m s Q' E := by grind [wp]

theorem wp_conseq_and {m : StateT σ (Except ε) α} {Q' R : α → σ → Prop} (h : wp m s Q E)
    (h' : wp m s Q' fun _ => True) (hR : ∀ a s', Q a s' → Q' a s' → R a s') : wp m s R E :=
  wp_conseq_ok h fun a s' hm hQ => hR a s' hQ (wp_ok h' hm)

theorem wp_trivial (m : StateT σ (Except ε) α) : wp m s (fun _ _ => True) fun _ => True := by
  grind [wp]

/-- A known result decides `wp`. -/
theorem wp_of_ok {m : StateT σ (Except ε) α} {a : α} {s' : σ}
    (hm : m s = .ok (a, s')) : wp m s Q E ↔ Q a s' := by
  unfold wp; rw [hm]

theorem exists_ok_of_wp {m : StateT σ (Except ε) α}
    (h : wp m s Q fun _ => False) : ∃ a s', m s = .ok (a, s') ∧ Q a s' := by grind [wp]

theorem bind_of_ok {m : StateT σ (Except ε) α} {f : α → StateT σ (Except ε) β} {a : α} {s' : σ}
    (hm : m s = .ok (a, s')) : (m >>= f) s = f a s' := by
  simp only [bind, StateT.bind, Except.bind, hm]

theorem get_bind {f : σ → StateT σ (Except ε) β} (s : σ) : (get >>= f) s = f s s := rfl

theorem modify_bind {g : σ → σ} {f : PUnit → StateT σ (Except ε) β} (s : σ) :
    (modify g >>= f) s = f ⟨⟩ (g s) := rfl

theorem bind_eq_ok {m : StateT σ (Except ε) α} {f : α → StateT σ (Except ε) β} {b : β} {s' : σ}
    (h : (m >>= f) s = .ok (b, s')) : ∃ a s1, m s = .ok (a, s1) ∧ f a s1 = .ok (b, s') := by
  cases hm : m s with
  | ok r => grind [bind_of_ok]
  | error e =>
    simp only [bind, StateT.bind, Except.bind, hm] at h
    cases h

/-- Run `body` at `i`, `i + 1`, …, `i + k - 1`. -/
def loopFrom (body : Nat → StateT σ (Except ε) Unit) :
    Nat → Nat → StateT σ (Except ε) Unit
  | _, 0 => pure ()
  | i, k + 1 => do
    body i
    loopFrom body (i + 1) k

theorem wp_loopFrom {body : Nat → StateT σ (Except ε) Unit} (I : Nat → σ → Prop)
    {i k : Nat}
    (hbody : ∀ j s, i ≤ j → j < i + k → I j s →
      wp (body j) s (fun _ s' => I (j + 1) s') E)
    (hI : I i s) :
    wp (loopFrom body i k) s (fun _ s' => I (i + k) s') E := by
  induction k generalizing i s with
  | zero => exact hI
  | succ k ih => grind [loopFrom, wp_bind, wp_conseq]

/-! ### A part of the state -/

variable {τ : Type}

/-- `m` on the part of the state that `view` reads and `put` replaces. -/
def zoom (view : σ → τ) (put : τ → σ → σ) (m : StateT τ (Except ε) α) :
    StateT σ (Except ε) α := fun s =>
  match m (view s) with
  | .ok (a, t) => .ok (a, put t s)
  | .error e => .error e

theorem wp_zoom {view : σ → τ} {put : τ → σ → σ} {m : StateT τ (Except ε) α} :
    wp (zoom view put m) s Q E ↔ wp m (view s) (fun a t => Q a (put t s)) E := by
  unfold wp zoom
  cases m (view s) with
  | ok r => rfl
  | error e => rfl

/-! ### What a computation leaves alone -/

variable {γ : Type} {g : σ → γ} {P : α → Prop} {P' : β → Prop}

/-- `m` returns a value satisfying `P` and keeps the part `g` of the state, or stops. -/
def Leaves (g : σ → γ) (m : StateT σ (Except ε) α) (P : α → Prop) : Prop :=
  ∀ s, wp m s (fun a s' => P a ∧ g s' = g s) fun _ => True

theorem Leaves.bind {m : StateT σ (Except ε) α} {f : α → StateT σ (Except ε) β}
    (hm : Leaves g m P) (hf : ∀ a, P a → Leaves g (f a) P') : Leaves g (m >>= f) P' := by
  intro s
  rw [wp_bind]
  refine wp_conseq (hm s) ?_
  rintro a s1 ⟨ha, hs1⟩
  refine wp_conseq (hf a ha s1) ?_
  rintro b s2 ⟨hb, hs2⟩
  exact ⟨hb, hs2.trans hs1⟩

theorem leaves_pure {a : α} (ha : P a) : Leaves g (pure a : StateT σ (Except ε) α) P :=
  fun _ => ⟨ha, rfl⟩

theorem leaves_throw {e : ε} : Leaves g (throw e : StateT σ (Except ε) α) P := fun _ => trivial

theorem leaves_get {f : σ → StateT σ (Except ε) β}
    (h : ∀ s, wp (f s) s (fun b s' => P' b ∧ g s' = g s) fun _ => True) :
    Leaves g (get >>= f) P' := by
  intro s
  rw [wp_bind, wp_get]
  exact h s

theorem leaves_modify {f : σ → σ} (h : ∀ s, g (f s) = g s) :
    Leaves g (modify f : StateT σ (Except ε) PUnit) fun _ => True := fun s => ⟨trivial, h s⟩

theorem Leaves.ite {c : Prop} [Decidable c] {m n : StateT σ (Except ε) α}
    (hm : Leaves g m P) (hn : Leaves g n P) : Leaves g (if c then m else n) P :=
  fun s => wp_ite (fun _ => hm s) fun _ => hn s

theorem leaves_loopFrom {body : Nat → StateT σ (Except ε) Unit}
    (h : ∀ i, Leaves g (body i) fun _ => True) :
    ∀ k i, Leaves g (loopFrom body i k) fun _ => True := by
  intro k
  induction k with
  | zero => exact fun i => leaves_pure trivial
  | succ k ih => exact fun i => (h i).bind fun _ _ => ih (i + 1)

/-! ### What a computation keeps true -/

variable {I : σ → Prop}

/-- `m` keeps the property `I` of the state, or stops. -/
structure Stable (I : σ → Prop) (m : StateT σ (Except ε) α) : Prop where
  keeps : ∀ s, I s → wp m s (fun _ s' => I s') fun _ => True

theorem Stable.bind {m : StateT σ (Except ε) α} {f : α → StateT σ (Except ε) β}
    (hm : Stable I m) (hf : ∀ a, Stable I (f a)) : Stable I (m >>= f) where
  keeps s hs := by
    rw [wp_bind]
    exact wp_conseq (hm.keeps s hs) fun a s1 hs1 => (hf a).keeps s1 hs1

theorem stable_pure {a : α} : Stable I (pure a : StateT σ (Except ε) α) := ⟨fun _ hs => hs⟩

theorem stable_throw {e : ε} : Stable I (throw e : StateT σ (Except ε) α) := ⟨fun _ _ => trivial⟩

theorem stable_get : Stable I (get : StateT σ (Except ε) σ) := ⟨fun _ hs => hs⟩

theorem stable_modify {f : σ → σ} (h : ∀ s, I s → I (f s)) :
    Stable I (modify f : StateT σ (Except ε) PUnit) := ⟨fun s hs => h s hs⟩

theorem stable_read {f : σ → StateT σ (Except ε) β}
    (h : ∀ s, I s → wp (f s) s (fun _ s' => I s') fun _ => True) : Stable I (get >>= f) where
  keeps s hs := by
    rw [wp_bind, wp_get]
    exact h s hs

theorem Stable.ite {c : Prop} [Decidable c] {m n : StateT σ (Except ε) α}
    (hm : Stable I m) (hn : Stable I n) : Stable I (if c then m else n) :=
  ⟨fun s hs => wp_ite (fun _ => hm.keeps s hs) fun _ => hn.keeps s hs⟩

theorem stable_loopFrom {body : Nat → StateT σ (Except ε) Unit} (h : ∀ i, Stable I (body i)) :
    ∀ k i, Stable I (loopFrom body i k) := by
  intro k
  induction k with
  | zero => exact fun i => stable_pure
  | succ k ih => exact fun i => (h i).bind fun _ => ih (i + 1)

/-! ### A supply that computations draw on -/

variable {e : ε} {supply : σ → Nat} {n k : Nat}

/-- From a state with a supply of `n` or more, `m` draws at most `n` and returns a value
    satisfying `P`, or stops with another exception than `e`. -/
def Draws (supply : σ → Nat) (e : ε) (n : Nat) (m : StateT σ (Except ε) α) (P : α → Prop) : Prop :=
  ∀ s, n ≤ supply s → wp m s (fun a s' => P a ∧ supply s ≤ supply s' + n) fun x => x ≠ e

theorem Draws.bind {m : StateT σ (Except ε) α} {f : α → StateT σ (Except ε) β}
    (hm : Draws supply e n m P) (hf : ∀ a, P a → Draws supply e k (f a) P') :
    Draws supply e (n + k) (m >>= f) P' := by
  intro s hs
  rw [wp_bind]
  refine wp_conseq (hm s (by omega)) ?_
  rintro a s1 ⟨ha, hs1⟩
  refine wp_conseq (hf a ha s1 (by omega)) ?_
  rintro b s2 ⟨hb, hs2⟩
  exact ⟨hb, by omega⟩

theorem Draws.seq {m : StateT σ (Except ε) α} {f : α → StateT σ (Except ε) β}
    (hm : Draws supply e 0 m P) (hf : ∀ a, P a → Draws supply e n (f a) P') :
    Draws supply e n (m >>= f) P' := by
  have h := hm.bind hf
  rwa [Nat.zero_add] at h

theorem Draws.mono {m : StateT σ (Except ε) α} (h : Draws supply e n m P) (hle : n ≤ k) :
    Draws supply e k m P := by
  intro s hs
  refine wp_conseq (h s (by omega)) ?_
  rintro a s1 ⟨ha, hs1⟩
  exact ⟨ha, by omega⟩

theorem draws_pure {a : α} (ha : P a) : Draws supply e n (pure a : StateT σ (Except ε) α) P :=
  fun _ _ => ⟨ha, Nat.le_add_right _ _⟩

theorem draws_throw {x : ε} (hx : x ≠ e) : Draws supply e n (throw x : StateT σ (Except ε) α) P :=
  fun _ _ => hx

theorem draws_get {f : σ → StateT σ (Except ε) β} (h : ∀ s, Draws supply e n (f s) P') :
    Draws supply e n (get >>= f) P' := by
  intro s hs
  rw [wp_bind, wp_get]
  exact h s s hs

theorem draws_modify {f : σ → σ} (h : ∀ s, supply s ≤ supply (f s)) :
    Draws supply e n (modify f : StateT σ (Except ε) PUnit) fun _ => True :=
  fun s _ => ⟨trivial, Nat.le_trans (h s) (Nat.le_add_right _ _)⟩

theorem Draws.ite {c : Prop} [Decidable c] {m m' : StateT σ (Except ε) α}
    (hm : Draws supply e n m P) (hm' : Draws supply e n m' P) :
    Draws supply e n (if c then m else m') P :=
  fun s hs => wp_ite (fun _ => hm s hs) fun _ => hm' s hs

theorem draws_loopFrom {body : Nat → StateT σ (Except ε) Unit}
    (h : ∀ i, Draws supply e 0 (body i) fun _ => True) :
    ∀ k i, Draws supply e 0 (loopFrom body i k) fun _ => True := by
  intro k
  induction k with
  | zero => exact fun i => draws_pure trivial
  | succ k ih => exact fun i => (h i).bind fun _ _ => ih (i + 1)

/-! ### A computation that may stop earlier than another -/

/-- `m` does what `n` does, or stops with the exception `e`. -/
def StopsOr (e : ε) (m n : StateT σ (Except ε) α) : Prop := ∀ s, m s = .error e ∨ m s = n s

theorem StopsOr.ok {m n : StateT σ (Except ε) α} {a : α} {s s' : σ} (h : StopsOr e m n)
    (hm : m s = .ok (a, s')) : n s = .ok (a, s') := by
  rcases h s with hstop | hsame
  · rw [hstop] at hm
    cases hm
  · rw [← hsame, hm]

/-- From every state satisfying `I`, `m` does what `n` does or stops with `e`, and where it
    returns, the value and the state satisfy `J`. -/
structure Follows (e : ε) (I : σ → Prop) (m n : StateT σ (Except ε) α) (J : α → σ → Prop) :
    Prop where
  same : ∀ s, I s → m s = .error e ∨ m s = n s
  ends : ∀ s, I s → wp m s J fun _ => True

variable {J : α → σ → Prop}

theorem Follows.bind {m n : StateT σ (Except ε) α} {f g : α → StateT σ (Except ε) β}
    (hm : Follows e I m n J) (hf : ∀ a, Follows e (J a) (f a) (g a) R) :
    Follows e I (m >>= f) (n >>= g) R := by
  constructor
  · intro s hs
    rcases hm.same s hs with hstop | hsame
    · exact .inl (by simp only [Bind.bind, StateT.bind, Except.bind, hstop])
    cases hrun : m s with
    | error x => exact .inr (by simp only [Bind.bind, StateT.bind, Except.bind, ← hsame, hrun])
    | ok r =>
      rw [bind_of_ok (show m s = .ok (r.1, r.2) from hrun),
        bind_of_ok (show n s = .ok (r.1, r.2) from hsame ▸ hrun)]
      exact (hf r.1).same r.2 (wp_ok (hm.ends s hs) hrun)
  · intro s hs
    rw [wp_bind]
    exact wp_conseq (hm.ends s hs) fun a s1 hs1 => (hf a).ends s1 hs1

theorem Follows.weaken {m n : StateT σ (Except ε) α} {I' : σ → Prop} (h : Follows e I m n J)
    (hI : ∀ s, I' s → I s) : Follows e I' m n J :=
  ⟨fun s hs => h.same s (hI s hs), fun s hs => h.ends s (hI s hs)⟩

theorem Follows.ite {c : Prop} [Decidable c] {m m' n n' : StateT σ (Except ε) α}
    (hm : Follows e I m m' J) (hn : Follows e I n n' J) :
    Follows e I (if c then m else n) (if c then m' else n') J := by
  split
  · exact hm
  · exact hn

theorem follows_self {m : StateT σ (Except ε) α} (h : ∀ s, I s → wp m s J fun _ => True) :
    Follows e I m m J := ⟨fun _ _ => .inr rfl, h⟩

theorem Stable.follows {m : StateT σ (Except ε) α} (h : Stable I m) :
    Follows e I m m fun _ => I := follows_self h.keeps

theorem Follows.stable {m n : StateT σ (Except ε) α} (h : Follows e I m n fun _ => I) :
    Stable I m := ⟨h.ends⟩

theorem Follows.stopsOr {m n : StateT σ (Except ε) α} (h : Follows e (fun _ => True) m n J) :
    StopsOr e m n := fun s => h.same s trivial

end StateExcept
