import Mathlib.Data.List.Forall2
import Ownership.Sketch.Grammar

/-!
# What a reader takes

`Reads r ts follow P` says that the reader `r` takes exactly the tokens `ts` where `follow` comes
after them, and that it gives something with `P`. Positions are left out of it, so the rules below
follow the text of a reader token by token.
-/

namespace Ownership.Sketch.Reader

open List

variable {α β γ : Type}

/-- The reader takes the tokens `ts` and leaves the tokens `follow`, and what it gives has `P`. -/
def Reads (r : Reader α) (ts follow : List TokenKind) (P : α → Prop) : Prop :=
  ∀ (file : Option String) (taken rest : List Token) (last : Option Token),
    taken.map Token.kind = ts → rest.map Token.kind = follow →
    ∃ a last', r ⟨file, taken ++ rest, last⟩ = .ok (a, ⟨file, rest, last'⟩) ∧ P a

namespace Reads

variable {r : Reader α} {f : α → Reader β} {ts us follow : List TokenKind} {P : α → Prop}
  {Q : β → Prop} {a : α} {t k : TokenKind}

lemma bind_eq_of_ok {c c' : Cursor} (h : r c = .ok (a, c')) : (r >>= f) c = f a c' := by
  simp [Bind.bind, StateT.bind, Except.bind, h]

lemma pure (h : P a) : Reads (pure a) [] follow P := by
  intro file taken rest last htaken _
  obtain rfl : taken = [] := map_eq_nil_iff.1 htaken
  exact ⟨a, last, rfl, h⟩

lemma bind (h : Reads r ts (us ++ follow) P) (hf : ∀ a, P a → Reads (f a) us follow Q) :
    Reads (r >>= f) (ts ++ us) follow Q := by
  intro file taken rest last htaken hrest
  obtain ⟨first, second, rfl, hfirst, hsecond⟩ := map_eq_append_iff.1 htaken
  have hnext : (second ++ rest).map Token.kind = us ++ follow := by
    rw [map_append, hsecond, hrest]
  obtain ⟨a, last', hr, ha⟩ := h file first (second ++ rest) last hfirst hnext
  obtain ⟨b, last'', hb, hQ⟩ := hf a ha file second rest last' hsecond hrest
  exact ⟨b, last'', by rw [append_assoc, bind_eq_of_ok hr, hb], hQ⟩

lemma bind_last (h : Reads r ts follow P) (hf : ∀ a, P a → Reads (f a) [] follow Q) :
    Reads (r >>= f) ts follow Q := by
  have hseq : Reads (r >>= f) (ts ++ []) follow Q := bind h hf
  rwa [append_nil] at hseq

lemma map {g : α → β} (h : Reads r ts follow fun a => Q (g a)) : Reads (g <$> r) ts follow Q := by
  rw [map_eq_pure_bind]
  exact bind_last h fun _ ha => pure ha

lemma mono {P' : α → Prop} (h : Reads r ts follow P) (hP : ∀ a, P a → P' a) :
    Reads r ts follow P' := by
  intro file taken rest last htaken hrest
  obtain ⟨a, last', hr, ha⟩ := h file taken rest last htaken hrest
  exact ⟨a, last', hr, hP a ha⟩

/-! ### Looking without taking -/

lemma here {f : Spot → Reader β} (h : ∀ spot, Reads (f spot) ts follow Q) :
    Reads (here >>= f) ts follow Q :=
  fun file taken rest last htaken hrest => h _ file taken rest last htaken hrest

lemma spanFrom {start : Spot} {f : Span → Reader β} (h : ∀ loc, Reads (f loc) ts follow Q) :
    Reads (spanFrom start >>= f) ts follow Q :=
  fun file taken rest last htaken hrest => h _ file taken rest last htaken hrest

lemma remaining {f : Nat → Reader β} (h : Reads (f (ts ++ follow).length) ts follow Q) :
    Reads (remaining >>= f) ts follow Q := by
  intro file taken rest last htaken hrest
  have hlength : (taken ++ rest).length = (ts ++ follow).length := by
    rw [← htaken, ← hrest, ← map_append, length_map]
  obtain ⟨b, last', hb, hQ⟩ := h file taken rest last htaken hrest
  refine ⟨b, last', ?_, hQ⟩
  rw [← hb, ← hlength]
  rfl

lemma peek? {f : Option TokenKind → Reader β} (h : Reads (f (ts ++ follow).head?) ts follow Q) :
    Reads (peek? >>= f) ts follow Q := by
  intro file taken rest last htaken hrest
  have hhead : (taken ++ rest).head?.map Token.kind = (ts ++ follow).head? := by
    rw [← htaken, ← hrest, ← map_append, head?_map]
  obtain ⟨b, last', hb, hQ⟩ := h file taken rest last htaken hrest
  refine ⟨b, last', ?_, hQ⟩
  rw [← hb, ← hhead]
  rfl

lemma peek?_cons {f : Option TokenKind → Reader β} (h : Reads (f (some t)) (t :: ts) follow Q) :
    Reads (Reader.peek? >>= f) (t :: ts) follow Q :=
  peek? h

/-! ### Taking one token -/

lemma skip {f : Unit → Reader β} (h : Reads (f ()) ts follow Q) :
    Reads (skip >>= f) (t :: ts) follow Q := by
  intro file taken rest last htaken hrest
  obtain ⟨first, others, rfl, -, hothers⟩ := map_eq_cons_iff.1 htaken
  obtain ⟨b, last', hb, hQ⟩ := h file others rest (some first) hothers hrest
  exact ⟨b, last', hb, hQ⟩

lemma accept {f : Bool → Reader β} (h : Reads (f true) ts follow Q) :
    Reads (accept k >>= f) (k :: ts) follow Q := by
  rw [Reader.accept, bind_assoc]
  refine peek?_cons ?_
  simp only [if_pos, bind_assoc, pure_bind]
  exact skip h

lemma accept_of_ne {f : Bool → Reader β} (hk : (ts ++ follow).head? ≠ some k)
    (h : Reads (f false) ts follow Q) : Reads (Reader.accept k >>= f) ts follow Q := by
  rw [Reader.accept, bind_assoc]
  refine peek? ?_
  simpa only [if_neg hk, pure_bind] using h

lemma expect {f : Unit → Reader β} (h : Reads (f ()) ts follow Q) :
    Reads (expect k >>= f) (k :: ts) follow Q := by
  rw [Reader.expect, bind_assoc]
  refine accept ?_
  simpa only [if_pos, pure_bind] using h

lemma name {word : String} {f : String → Reader β} (h : Reads (f word) ts follow Q) :
    Reads (name >>= f) (.name word :: ts) follow Q := by
  rw [Reader.name, bind_assoc]
  refine peek?_cons ?_
  simp only [bind_assoc, pure_bind]
  exact skip h

/-! ### Choices -/

section Choices

variable {k : TokenKind} {yes no : Reader β}

lemma choose (h : Reads yes ts follow Q) :
    Reads (Reader.accept k >>= fun found => if found then yes else no) (k :: ts) follow Q :=
  accept (by simpa using h)

lemma choose_of_ne (hk : (ts ++ follow).head? ≠ some k) (h : Reads no ts follow Q) :
    Reads (Reader.accept k >>= fun found => if found then yes else no) ts follow Q :=
  accept_of_ne hk (by simpa using h)

end Choices

/-! ### Repetition

A list `xs` is printed part by part, each `x` as `tok x`, and `part` reads each of them wherever a
token with `next` comes after it. -/

section Repetition

variable {part : Reader α} {x : γ} {xs : List γ} {tok : γ → List TokenKind} {rel : γ → α → Prop}
  {next : TokenKind → Prop} {t : TokenKind} {more : List TokenKind} {n : Nat}
  {close separator : Symbol}

lemma exists_flatMap_append_eq_cons (more : List TokenKind)
    (hx : ∀ x ∈ xs, ∃ t more, tok x = t :: more ∧ next t) (ht : next t) :
    ∃ t' more', xs.flatMap tok ++ t :: more = t' :: more' ∧ next t' := by
  cases xs with
  | nil => exact ⟨t, more, rfl, ht⟩
  | cons x xs =>
    obtain ⟨t', more', htok, ht'⟩ := hx x (by simp)
    exact ⟨t', more' ++ (xs.flatMap tok ++ t :: more), by simp [htok], ht'⟩

lemma length_le_length_flatMap (hx : ∀ x ∈ xs, tok x ≠ []) :
    xs.length ≤ (xs.flatMap tok).length := by
  induction xs with
  | nil => simp
  | cons x xs ih =>
    have hpos : 0 < (tok x).length := length_pos_iff.2 (hx x (by simp))
    have hrest := ih fun y hy => hx y (by simp [hy])
    simp only [flatMap_cons, length_append, length_cons]
    omega

lemma manyUntilUpTo (hreads : ∀ x ∈ xs, ∀ t more, next t → Reads part (tok x) (t :: more) (rel x))
    (hstart : ∀ x ∈ xs, ∃ t more, tok x = t :: more ∧ next t ∧ t ≠ .symbol close)
    (hclose : next (.symbol close)) (hn : xs.length < n) :
    Reads (manyUntilUpTo close part n) (xs.flatMap tok ++ [.symbol close]) follow
      (List.Forall₂ rel xs) := by
  induction xs generalizing n with
  | nil =>
    obtain ⟨n, rfl⟩ := Nat.exists_eq_add_one.2 hn
    exact choose (pure .nil)
  | cons x xs ih =>
    obtain ⟨n, rfl⟩ := Nat.exists_eq_add_one.2 (Nat.zero_lt_of_lt hn)
    have hlater : ∀ y ∈ xs, ∃ t more, tok y = t :: more ∧ next t ∧ t ≠ .symbol close :=
      fun y hy => hstart y (by simp [hy])
    obtain ⟨t, more, htok, -, ht⟩ := hstart x (by simp)
    obtain ⟨t', more', hrest, ht'⟩ := exists_flatMap_append_eq_cons follow
      (fun y hy => (hlater y hy).imp fun t h => h.imp fun more h => ⟨h.1, h.2.1⟩) hclose
    rw [flatMap_cons, append_assoc]
    refine choose_of_ne (by simpa [htok] using ht) ?_
    refine bind (P := rel x) ?_ fun a ha => ?_
    · rw [append_assoc, singleton_append, hrest]
      exact hreads x (by simp) t' more' ht'
    · refine bind_last (ih (fun y hy => hreads y (by simp [hy])) hlater
        (by simpa using hn)) fun as has => ?_
      exact pure (.cons ha has)

lemma manyUntil (hreads : ∀ x ∈ xs, ∀ t more, next t → Reads part (tok x) (t :: more) (rel x))
    (hstart : ∀ x ∈ xs, ∃ t more, tok x = t :: more ∧ next t ∧ t ≠ .symbol close)
    (hclose : next (.symbol close)) :
    Reads (manyUntil close part) (xs.flatMap tok ++ [.symbol close]) follow
      (List.Forall₂ rel xs) := by
  refine remaining (manyUntilUpTo hreads hstart hclose ?_)
  have hlength : xs.length ≤ (xs.flatMap tok).length := length_le_length_flatMap fun x hx => by
    obtain ⟨t, more, htok, -⟩ := hstart x hx
    simp [htok]
  simp only [length_append, length_singleton]
  omega

lemma separatedUpTo
    (hreads : ∀ y ∈ x :: xs, ∀ t more, next t → Reads part (tok y) (t :: more) (rel y))
    (hseparator : next (.symbol separator)) (ht : next t) (hne : t ≠ .symbol separator)
    (hn : xs.length ≤ n) :
    Reads (separatedUpTo separator part n) ([.symbol separator].intercalate ((x :: xs).map tok))
      (t :: more) (List.Forall₂ rel (x :: xs)) := by
  induction xs generalizing x n with
  | nil =>
    have hx : Reads part (tok x) (t :: more) (rel x) := hreads x (by simp) t more ht
    simp only [map_cons, map_nil, intercalate_singleton]
    cases n with
    | zero => exact bind_last hx fun a ha => pure (.cons ha .nil)
    | succ n =>
      refine bind_last hx fun a ha => ?_
      exact choose_of_ne (by simpa using hne) (pure (.cons ha .nil))
  | cons y xs ih =>
    obtain ⟨n, rfl⟩ := Nat.exists_eq_add_one.2 (Nat.lt_of_lt_of_le (Nat.zero_lt_succ _) hn)
    rw [map_cons, map_cons, intercalate_cons_cons, append_assoc]
    refine bind (hreads x (by simp) _ _ hseparator) fun a ha => ?_
    refine choose ?_
    refine bind_last (ih (fun z hz => hreads z (by simp [hz])) (by simpa using hn)) fun as has => ?_
    exact pure (.cons ha has)

lemma length_le_length_intercalate (separator : TokenKind) (parts : List (List TokenKind)) :
    parts.length ≤ ([separator].intercalate parts).length + 1 := by
  induction parts with
  | nil => simp
  | cons first rest ih =>
    cases rest with
    | nil => simp
    | cons second rest =>
      simp only [intercalate_cons_cons, length_append, length_cons] at ih ⊢
      omega

lemma length_le_of_mem (separator : TokenKind) {parts : List (List TokenKind)}
    {part : List TokenKind} (h : part ∈ parts) :
    part.length ≤ ([separator].intercalate parts).length := by
  induction parts with
  | nil => simp at h
  | cons first rest ih =>
    cases rest with
    | nil => simp_all
    | cons second rest =>
      rw [intercalate_cons_cons, length_append, length_append]
      rcases mem_cons.1 h with rfl | h
      · omega
      · have hrest := ih h
        omega

lemma separated (hreads : ∀ y ∈ x :: xs, ∀ t more, next t → Reads part (tok y) (t :: more) (rel y))
    (hseparator : next (.symbol separator)) (ht : next t) (hne : t ≠ .symbol separator) :
    Reads (separated separator part) ([.symbol separator].intercalate ((x :: xs).map tok))
      (t :: more) (List.Forall₂ rel (x :: xs)) := by
  refine remaining (separatedUpTo hreads hseparator ht hne ?_)
  have hlength := length_le_length_intercalate (.symbol separator) ((x :: xs).map tok)
  simp only [length_map, length_append, length_cons] at hlength ⊢
  omega

variable (hreads : ∀ x ∈ xs, ∀ t more, next t → Reads part (tok x) (t :: more) (rel x))
  (hstart : ∀ x ∈ xs, ∃ t more, tok x = t :: more ∧ t ≠ .symbol close)
  (hcomma : next (.symbol .comma)) (hclose : next (.symbol close)) (hne : close ≠ .comma)

include hreads hstart hcomma hclose hne

lemma listed :
    Reads (listed close part) ([.symbol .comma].intercalate (xs.map tok) ++ [.symbol close]) follow
      (List.Forall₂ rel xs) := by
  cases xs with
  | nil => exact choose (pure .nil)
  | cons x xs =>
    obtain ⟨t, more, htok, ht⟩ := hstart x (by simp)
    refine choose_of_ne ?_ ?_
    · cases xs <;> simpa [htok, intercalate_cons_cons] using ht
    · refine bind (separated hreads hcomma hclose (by simpa using hne)) fun as has => ?_
      exact expect (pure has)

lemma listedLooselyUpTo (hpos : 0 < n) (hn : xs.length ≤ n) :
    Reads (listedLooselyUpTo close part n)
      ([.symbol .comma].intercalate (xs.map tok) ++ [.symbol close]) follow
      (List.Forall₂ rel xs) := by
  induction xs generalizing n with
  | nil =>
    obtain ⟨n, rfl⟩ := Nat.exists_eq_add_one.2 hpos
    exact choose (pure .nil)
  | cons x xs ih =>
    obtain ⟨n, rfl⟩ := Nat.exists_eq_add_one.2 hpos
    obtain ⟨t, more, htok, ht⟩ := hstart x (by simp)
    refine choose_of_ne ?_ ?_
    · cases xs <;> simpa [htok, intercalate_cons_cons] using ht
    · cases xs with
      | nil =>
        simp only [map_cons, map_nil, intercalate_singleton]
        refine bind (hreads x (by simp) _ _ hclose) fun a ha => ?_
        exact choose_of_ne (by simpa using hne) (expect (pure (.cons ha .nil)))
      | cons y xs =>
        rw [map_cons, map_cons, intercalate_cons_cons, append_assoc,
          append_assoc]
        refine bind (hreads x (by simp) _ _ hcomma) fun a ha => ?_
        refine choose ?_
        simp only [length_cons, Nat.add_le_add_iff_right] at hn
        refine bind_last (ih (fun z hz => hreads z (by simp [hz]))
          (fun z hz => hstart z (by simp [hz])) (Nat.zero_lt_of_lt hn) hn) fun as has => ?_
        exact pure (.cons ha has)

lemma listedLoosely :
    Reads (listedLoosely close part)
      ([.symbol .comma].intercalate (xs.map tok) ++ [.symbol close]) follow
      (List.Forall₂ rel xs) := by
  have hlength := length_le_length_intercalate (.symbol .comma) (xs.map tok)
  rw [length_map] at hlength
  refine remaining (listedLooselyUpTo hreads hstart hcomma hclose hne ?_ ?_)
  · simp only [length_append, length_singleton]
    omega
  · simp only [length_append, length_singleton]
    omega

omit hreads hstart hcomma hclose hne

lemma allUpTo {b : Nat}
    (hreads : ∀ x ∈ xs, ∀ more, (tok x ++ more).length ≤ b → Reads part (tok x) more (rel x))
    (hstart : ∀ x ∈ xs, tok x ≠ []) (hb : (xs.flatMap tok).length ≤ b) (hn : xs.length ≤ n) :
    Reads (allUpTo part n) (xs.flatMap tok) [] (List.Forall₂ rel xs) := by
  induction xs generalizing n with
  | nil =>
    cases n with
    | zero => exact pure .nil
    | succ n => exact peek? (pure .nil)
  | cons x xs ih =>
    obtain ⟨n, rfl⟩ := Nat.exists_eq_add_one.2 (Nat.lt_of_lt_of_le (Nat.zero_lt_succ _) hn)
    obtain ⟨t, more, htok⟩ := exists_cons_of_ne_nil (hstart x (by simp))
    rw [flatMap_cons] at hb
    have hlater : (xs.flatMap tok).length ≤ b := by
      rw [length_append] at hb
      omega
    have hrest :=
      ih (fun y hy => hreads y (by simp [hy])) (fun y hy => hstart y (by simp [hy])) hlater
      (by simpa using hn)
    refine peek? ?_
    rw [flatMap_cons]
    simp only [htok, cons_append, head?_cons]
    rw [← cons_append, ← htok]
    refine bind (hreads x (by simp) _ (by simpa using hb)) fun a ha => ?_
    exact bind_last hrest fun as has => pure (.cons ha has)

lemma all (hreads : ∀ x ∈ xs, ∀ more, (tok x ++ more).length ≤ (xs.flatMap tok).length →
      Reads part (tok x) more (rel x)) (hstart : ∀ x ∈ xs, tok x ≠ []) :
    Reads (all part) (xs.flatMap tok) [] (List.Forall₂ rel xs) := by
  refine remaining (allUpTo hreads hstart (Nat.le_refl _) ?_)
  simpa using length_le_length_flatMap hstart

end Repetition

end Reads

end Ownership.Sketch.Reader
