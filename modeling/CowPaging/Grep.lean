import Mathlib.Computability.Language
import CowPaging.Shell

/-!
# grep

The matcher of `grep.c`, on two NUL-terminated strings. A pattern is a list of items, a byte
or a byte with a star, between the anchors `^` and `$`; its language is the product of
theirs. `match` finds a word of that language whenever there is one.
-/

namespace CowPaging.Grep

open Bytes
open Shell (ch)

variable {c : Byte} {text : List Byte}

/-! ### The matcher -/

/-- A byte of the pattern against a byte of the text. -/
def fits (c t : Byte) : Bool := decide (c = ch '.') || decide (t = c)

/-- The loops of `matchstar` and `match`: try `here`, then step over a byte that is `ok`. -/
def search (ok : Byte → Bool) (here : List Byte → Bool) : List Byte → Bool
  | [] => here []
  | t :: text => here (t :: text) || (ok t && search ok here text)

/-- `matchstar`; `here` is `matchhere` with the rest of the pattern. -/
def matchstar (c : Byte) (here : List Byte → Bool) : List Byte → Bool := search (fits c) here

/-- The end of `matchhere`: one byte, and `rest` from the next one on. -/
def consume (c : Byte) (rest : List Byte → Bool) : List Byte → Bool
  | [] => false
  | t :: text => fits c t && rest text

def matchhere : List Byte → List Byte → Bool
  | [], _ => true
  | [c], text => if c = ch '$' then text.isEmpty else consume c (matchhere []) text
  | c :: d :: re, text =>
    if d = ch '*' then matchstar c (matchhere re) text
    else consume c (matchhere (d :: re)) text

/-- `match`. -/
def matchText (re text : List Byte) : Bool :=
  if re.head? = some (ch '^') then matchhere re.tail text
  else search (fun _ => true) (matchhere re) text

/-! ### The language of a pattern -/

inductive Item where
  | one (c : Byte)
  | star (c : Byte)

/-- The items of a pattern without `^`, and whether it ends in the anchor `$`. -/
def items : List Byte → List Item × Bool
  | [] => ([], false)
  | [c] => if c = ch '$' then ([], true) else ([.one c], false)
  | c :: d :: re =>
    if d = ch '*' then (.star c :: (items re).1, (items re).2)
    else (.one c :: (items (d :: re)).1, (items (d :: re)).2)

/-- The words of one byte that fits. -/
def letters (c : Byte) : Language Byte := {w | ∃ t, fits c t = true ∧ w = [t]}

def Item.language : Item → Language Byte
  | .one c => letters c
  | .star c => KStar.kstar (letters c)

def language (is : List Item) : Language Byte := (is.map Item.language).prod

theorem mem_star_language {w : List Byte} :
    w ∈ (Item.star c).language ↔ ∀ t ∈ w, fits c t = true := by
  rw [Item.language, Language.mem_kstar]
  constructor
  · rintro ⟨L, rfl, hL⟩ t ht
    obtain ⟨x, hx, htx⟩ := List.mem_flatten.1 ht
    obtain ⟨u, hu, rfl⟩ := hL x hx
    rw [List.mem_singleton.1 htx]
    exact hu
  · intro hw
    refine ⟨w.map ([·]), (List.flatMap_singleton' w).symm, fun x hx => ?_⟩
    obtain ⟨t, ht, rfl⟩ := List.mem_map.1 hx
    exact ⟨t, hw t ht, rfl⟩

/-- The search finds every split of the text that there is. -/
theorem search_iff {ok : Byte → Bool} {here : List Byte → Bool} :
    search ok here text = true ↔
      ∃ v w, text = v ++ w ∧ (∀ t ∈ v, ok t = true) ∧ here w = true := by
  induction text with
  | nil =>
    rw [search]
    constructor
    · exact fun h => ⟨[], [], rfl, List.forall_mem_nil _, h⟩
    · rintro ⟨v, w, heq, -, h⟩
      obtain ⟨rfl, rfl⟩ := List.append_eq_nil_iff.1 heq.symm
      exact h
  | cons t text ih =>
    rw [search, Bool.or_eq_true, Bool.and_eq_true, ih]
    constructor
    · rintro (h | ⟨ht, v, w, rfl, hv, h⟩)
      · exact ⟨[], t :: text, rfl, List.forall_mem_nil _, h⟩
      · exact ⟨t :: v, w, rfl, List.forall_mem_cons.2 ⟨ht, hv⟩, h⟩
    · rintro ⟨v, w, heq, hv, h⟩
      cases v with
      | nil => exact .inl (heq ▸ h)
      | cons t' v =>
        obtain ⟨rfl, rfl⟩ := List.cons.inj heq
        obtain ⟨ht, hv⟩ := List.forall_mem_cons.1 hv
        exact .inr ⟨ht, v, w, rfl, hv, h⟩

/-- The text begins with a word of the pattern; after a final `$` it is that word. -/
def Begins (p : List Item × Bool) (text : List Byte) : Prop :=
  ∃ u ∈ language p.1, ∃ post, text = u ++ post ∧ (p.2 = true → post = [])

theorem begins_cons {i : Item} {is : List Item} {final : Bool} :
    Begins (i :: is, final) text ↔
      ∃ v w, text = v ++ w ∧ v ∈ i.language ∧ Begins (is, final) w := by
  simp only [Begins, language, List.map_cons, List.prod_cons]
  constructor
  · rintro ⟨_, ⟨u, hu, v, hv, rfl⟩, post, rfl, hpost⟩
    exact ⟨u, v ++ post, List.append_assoc u v post, hu, v, hv, post, rfl, hpost⟩
  · rintro ⟨v, w, rfl, hv, u, hu, post, rfl, hpost⟩
    exact ⟨v ++ u, ⟨v, hv, u, hu, rfl⟩, post, (List.append_assoc v u post).symm, hpost⟩

theorem consume_iff {rest : List Byte → Bool} :
    consume c rest text = true ↔ ∃ v w, text = v ++ w ∧ v ∈ letters c ∧ rest w = true := by
  constructor
  · intro h
    cases text with
    | nil => cases h
    | cons t text =>
      obtain ⟨ht, h⟩ := Bool.and_eq_true_iff.1 h
      exact ⟨[t], text, rfl, ⟨t, ht, rfl⟩, h⟩
  · rintro ⟨_, w, rfl, ⟨t, ht, rfl⟩, h⟩
    exact Bool.and_eq_true_iff.2 ⟨ht, h⟩

/-- `matchhere` by the recursion of the pattern: one more item, or the end of it. -/
theorem matchhere_iff (re text : List Byte) : matchhere re text = true ↔ Begins (items re) text := by
  fun_induction items re generalizing text with
  | case1 => exact iff_of_true (by rw [matchhere]) ⟨[], rfl, text, rfl, fun h => by cases h⟩
  | case2 =>
    rw [matchhere, if_pos rfl, List.isEmpty_iff]
    constructor
    · rintro rfl
      exact ⟨[], rfl, [], rfl, fun _ => rfl⟩
    · rintro ⟨u, rfl, post, rfl, hpost⟩
      exact hpost rfl
  | case3 c hc =>
    have hend : ∀ w, Begins ([], false) w := fun w => ⟨[], rfl, w, rfl, fun h => by cases h⟩
    rw [matchhere, if_neg hc, consume_iff, begins_cons]
    simp only [Item.language, matchhere, hend]
  | case4 c re ih =>
    rw [matchhere, if_pos rfl, matchstar, search_iff, begins_cons]
    simp only [mem_star_language, ih]
  | case5 c d re hd ih =>
    rw [matchhere, if_neg hd, consume_iff, begins_cons]
    simp only [Item.language, ih]

/-- Some substring of the text is a word of the pattern: at the start of the text after a
    leading `^`, and at its end before a final `$`. -/
theorem match_exact (re text : List Byte) :
    let anchored := re.head? = some (ch '^')
    let p := items (if anchored then re.tail else re)
    matchText re text = true ↔ ∃ pre u post, text = pre ++ u ++ post ∧ u ∈ language p.1 ∧
      (anchored → pre = []) ∧ (p.2 = true → post = []) := by
  intro anchored p
  have hbegins : matchText re text = true ↔
      ∃ pre w, text = pre ++ w ∧ (anchored → pre = []) ∧ Begins p w := by
    by_cases h : anchored
    · rw [matchText, if_pos h, matchhere_iff]
      simp [p, h]
    · rw [matchText, if_neg h, search_iff]
      simp [p, h, matchhere_iff]
  rw [hbegins]
  constructor
  · rintro ⟨pre, w, rfl, hpre, u, hu, post, rfl, hpost⟩
    exact ⟨pre, u, post, (List.append_assoc pre u post).symm, hu, hpre, hpost⟩
  · rintro ⟨pre, u, post, rfl, hu, hpre, hpost⟩
    exact ⟨pre, u ++ post, List.append_assoc pre u post, hpre, u, hu, post, rfl, hpost⟩

end CowPaging.Grep
