import Ownership.Proofs.Sketch.Reading

/-!
# Reading again

What a reader once took, it takes again wherever the same tokens come, and what it gives then
differs in spans only. `Echoes` says so of two readers, since the numbers that bound repetitions,
and the spans of what was read before, differ from one place to another. A reader that looks at the
token after those that it takes reads them again only before such a token; one that ends with a
token of its own reads them again before anything.
-/

namespace Ownership.Sketch

open List

def Cursor.kinds (c : Cursor) : List TokenKind := c.rest.map Token.kind

lemma Cursor.length_kinds (c : Cursor) : c.kinds.length = c.rest.length := length_map _

namespace Reader

variable {α β γ δ : Type}

/-- Whatever the first reader takes at a cursor with at most `b` tokens to come, the second one
takes where at most `b'` tokens come, and what it gives has the same `φ`. If the readers `look`,
this is so only where the same token comes next. The first reader `takes` at least one token if it
is said to. -/
def Echoes (takes look : Bool) (b b' : Nat) (r r' : Reader α) (φ : α → γ) : Prop :=
  ∀ c a d, c.rest.length ≤ b → r c = .ok (a, d) → ∃ ts, c.kinds = ts ++ d.kinds ∧
    (takes = true → 0 < ts.length) ∧ ∀ follow, (look = true → follow.head? = d.kinds.head?) →
      (ts ++ follow).length ≤ b' → Reads r' ts follow fun a' => φ a' = φ a

namespace Echoes

variable {s t look : Bool} {b b' : Nat} {r r' : Reader α} {φ : α → γ} {ψ : β → δ}
  {f f' : α → Reader β} {k : TokenKind}

lemma mono {c c' : Nat} (h : Echoes s look b b' r r' φ) (ht : t = true → s = true) (hb : c ≤ b)
    (hb' : c' ≤ b') : Echoes t look c c' r r' φ := by
  intro x a d hx hr
  obtain ⟨ts, hts, htakes, hreads⟩ := h x a d (Nat.le_trans hx hb) hr
  exact ⟨ts, hts, fun h => htakes (ht h), fun follow hlook hfollow =>
    hreads follow hlook (Nat.le_trans hfollow hb')⟩

lemma any (h : Echoes true look b b' r r' φ) : Echoes t look b b' r r' φ :=
  h.mono (fun _ => rfl) (Nat.le_refl b) (Nat.le_refl b')

lemma weaken (h : Echoes t look b b' r r' φ) : Echoes false look b b' r r' φ :=
  h.mono nofun (Nat.le_refl b) (Nat.le_refl b')

lemma looking (h : Echoes true false b b' r r' φ) : Echoes t look b b' r r' φ := by
  intro c a d hc hr
  obtain ⟨ts, hts, htakes, hreads⟩ := h c a d hc hr
  exact ⟨ts, hts, fun _ => htakes rfl, fun follow _ hfollow => hreads follow nofun hfollow⟩

lemma fail : Echoes t look b b' fail r' φ := fun _ _ _ _ h => nomatch h

lemma pure {a a' : α} (h : φ a' = φ a) : Echoes false look b b' (pure a) (pure a') φ := by
  intro c x d _ hr
  cases hr
  exact ⟨[], rfl, nofun, fun follow _ _ => .pure h⟩

/-! ### Sequences -/

lemma exists_of_bind {c e : Cursor} {x : β} (h : (r >>= f) c = .ok (x, e)) :
    ∃ a d, r c = .ok (a, d) ∧ f a d = .ok (x, e) := by
  cases hr : r c with
  | error stuck => simp [Bind.bind, StateT.bind, Except.bind, hr] at h
  | ok k =>
    rw [Reads.bind_eq_of_ok hr] at h
    exact ⟨k.1, k.2, rfl, h⟩

/-- A sequence is read again. The first part may look at the token after it if that is taken by the
second part, or else if the whole looks. -/
lemma bind {look₁ : Bool} (h : Echoes s look₁ b b' r r' φ)
    (hf : ∀ a a', φ a' = φ a → Echoes t look (b - s.toNat) (b' - s.toNat) (f a) (f' a') ψ)
    (hlook : look₁ = true → look = true ∨ t = true) :
    Echoes (s || t) look b b' (r >>= f) (r' >>= f') ψ := by
  intro c x e hc hr
  obtain ⟨a, d, hr, hf'⟩ := exists_of_bind hr
  obtain ⟨ts, hts, hs, hreads⟩ := h c a d hc hr
  have htaken : s.toNat ≤ ts.length := by
    cases s with
    | false => exact Nat.zero_le _
    | true => exact hs rfl
  have hd : d.rest.length ≤ b - s.toNat := by
    have hlength := congrArg length hts
    rw [length_append, c.length_kinds, d.length_kinds] at hlength
    omega
  obtain ⟨us, hus, ht, -⟩ := hf a a rfl d x e hd hf'
  refine ⟨ts ++ us,
    by rw [hts, hus, append_assoc], fun hst => ?_, fun follow hfollow hb' => ?_⟩
  · rw [length_append]
    rcases (Bool.or_eq_true s t).mp hst with hst | hst
    · exact Nat.add_pos_left (hs hst) _
    · exact Nat.add_pos_right _ (ht hst)
  rw [append_assoc] at hb'
  have hnext : look₁ = true → (us ++ follow).head? = d.kinds.head? := by
    intro hlook₁
    rw [hus]
    cases us with
    | cons u us => rfl
    | nil => exact hfollow ((hlook hlook₁).resolve_right fun htrue => Nat.lt_irrefl 0 (ht htrue))
  refine (hreads (us ++ follow) hnext hb').bind fun a' ha' => ?_
  obtain ⟨us', hus', -, hreads'⟩ := hf a a' ha' d x e hd hf'
  obtain rfl : us' = us := append_cancel_right (hus'.symm.trans hus)
  refine hreads' follow hfollow ?_
  rw [length_append] at hb'
  omega

lemma andThen (h : Echoes s look b b' r r' φ)
    (hf : ∀ {c c'} a a', φ a' = φ a → Echoes false look c c' (f a) (f' a') ψ) :
    Echoes s look b b' (r >>= f) (r' >>= f') ψ := by
  have hseq := h.bind (fun a a' ha => hf a a' ha) .inl
  rwa [Bool.or_false] at hseq

/-- The first part looks, so what comes after it takes a token unless the whole looks. -/
lemma before (h : Echoes false true b b' r r' φ)
    (hf : ∀ a a', φ a' = φ a → Echoes (!look || t) look b b' (f a) (f' a') ψ) :
    Echoes t look b b' (r >>= f) (r' >>= f') ψ := by
  have hseq := h.bind hf fun _ => by cases look <;> simp
  cases look with
  | false => exact hseq.any
  | true => exact hseq

lemma map {g : α → β} (h : Echoes t look b b' r r' φ)
    (hψ : ∀ a a', φ a' = φ a → ψ (g a') = ψ (g a)) :
    Echoes t look b b' (g <$> r) (g <$> r') ψ := by
  rw [map_eq_pure_bind, map_eq_pure_bind]
  exact h.andThen fun a a' ha => pure (hψ a a' ha)

/-! ### Looking without taking -/

lemma still {v v' : Cursor → α}
    (hf : ∀ c c' : Cursor, c.rest.length ≤ b → c'.rest.length ≤ b' →
      Echoes t look c.rest.length c'.rest.length (f (v c)) (f' (v' c')) ψ) :
    Echoes t look b b' ((fun c => .ok (v c, c) : Reader α) >>= f)
      ((fun c => .ok (v' c, c) : Reader α) >>= f') ψ := by
  intro c x d hc hr
  have hat := fun c' hc' => hf c c' hc hc' c x d (Nat.le_refl _) hr
  obtain ⟨ts, hts, htakes, -⟩ := hat { rest := [] } (Nat.zero_le b')
  refine ⟨ts, hts, htakes, fun follow hlook hb' file taken rest last htaken hrest => ?_⟩
  have hlength : (taken ++ rest).length = (ts ++ follow).length := by
    rw [← htaken, ← hrest, ← map_append, length_map]
  obtain ⟨ts', hts', -, hreads⟩ := hat ⟨file, taken ++ rest, last⟩ (hlength ▸ hb')
  obtain rfl : ts' = ts := append_cancel_right (hts'.symm.trans hts)
  exact hreads follow hlook (Nat.le_of_eq hlength.symm) file taken rest last htaken hrest

lemma here {f f' : Spot → Reader β} (hf : ∀ spot spot', Echoes t look b b' (f spot) (f' spot') ψ) :
    Echoes t look b b' (here >>= f) (here >>= f') ψ :=
  still fun _ _ hc hc' => (hf _ _).mono id hc hc'

lemma spanFrom {start start' : Spot} {f f' : Span → Reader β}
    (hf : ∀ loc loc', Echoes t look b b' (f loc) (f' loc') ψ) :
    Echoes t look b b' (spanFrom start >>= f) (spanFrom start' >>= f') ψ :=
  still fun _ _ hc hc' => (hf _ _).mono id hc hc'

lemma remaining {f f' : Nat → Reader β}
    (hf : ∀ n n', n ≤ b → n' ≤ b' → Echoes t look n n' (f n) (f' n') ψ) :
    Echoes t look b b' (remaining >>= f) (remaining >>= f') ψ :=
  still fun _ _ hc hc' => hf _ _ hc hc'

lemma peek? {f f' : Option TokenKind → Reader β}
    (hf : ∀ k, Echoes (!look || t) look b b' (f k) (f' k) ψ) :
    Echoes t look b b' (peek? >>= f) (peek? >>= f') ψ := by
  intro c x d hc hr
  obtain ⟨k, c', hk, hr⟩ := exists_of_bind hr
  cases hk
  obtain ⟨ts, hts, htakes, hreads⟩ := hf _ _ x d hc hr
  refine ⟨ts, hts, fun ht => htakes (by simp [ht]), fun follow hfollow hb' => .peek? ?_⟩
  have hhead : (ts ++ follow).head? = c.rest.head?.map Token.kind := by
    have hkinds : c.rest.head?.map Token.kind = (ts ++ d.kinds).head? := by
      rw [← hts, Cursor.kinds, head?_map]
    rw [hkinds]
    cases ts with
    | cons u ts => rfl
    | nil =>
      cases look with
      | true => exact hfollow rfl
      | false => exact absurd (htakes rfl) (Nat.lt_irrefl 0)
  rw [hhead]
  exact hreads follow hfollow hb'

/-! ### Taking one token -/

lemma skip {f f' : Unit → Reader β} (hf : Echoes false look (b - 1) (b' - 1) (f ()) (f' ()) ψ) :
    Echoes t look b b' (skip >>= f) (skip >>= f') ψ := by
  intro c x d hc hr
  obtain ⟨u, c', hu, hr⟩ := exists_of_bind hr
  obtain ⟨file, rest, last⟩ := c
  cases rest with
  | nil => cases hu
  | cons k rest =>
    cases hu
    obtain ⟨ts, hts, -, hreads⟩ := hf ⟨file, rest, some k⟩ x d (Nat.le_sub_one_of_lt hc) hr
    refine ⟨k.kind :: ts, congrArg (k.kind :: ·) hts, fun _ => Nat.succ_pos _,
      fun follow hlook hb' => ?_⟩
    exact .skip (hreads follow hlook (Nat.le_sub_one_of_lt hb'))

lemma accept {f f' : Bool → Reader β}
    (htrue : Echoes false look (b - 1) (b' - 1) (f true) (f' true) ψ)
    (hfalse : Echoes (!look || t) look b b' (f false) (f' false) ψ) :
    Echoes t look b b' (accept k >>= f) (accept k >>= f') ψ := by
  rw [Reader.accept, bind_assoc, bind_assoc]
  refine peek? fun next => ?_
  by_cases hnext : next = some k
  · simp only [if_pos hnext, bind_assoc, pure_bind]
    exact skip htrue
  · simpa only [if_neg hnext, pure_bind] using hfalse

lemma flag {f f' : Bool → Reader β}
    (hf : ∀ {c c'} found, Echoes (!look || t) look c c' (f found) (f' found) ψ) :
    Echoes t look b b' (Reader.accept k >>= f) (Reader.accept k >>= f') ψ :=
  accept (hf true).weaken (hf false)

lemma expect {f f' : Unit → Reader β} (hf : Echoes false look (b - 1) (b' - 1) (f ()) (f' ()) ψ) :
    Echoes t look b b' (expect k >>= f) (expect k >>= f') ψ := by
  rw [Reader.expect, bind_assoc, bind_assoc]
  refine accept ?_ fail
  simpa only [if_pos, pure_bind] using hf

lemma name {f f' : String → Reader β}
    (hf : ∀ word, Echoes false look (b - 1) (b' - 1) (f word) (f' word) ψ) :
    Echoes t look b b' (name >>= f) (name >>= f') ψ := by
  rw [Reader.name, bind_assoc, bind_assoc]
  refine peek? fun next => ?_
  split
  · simp only [bind_assoc, pure_bind]
    exact skip (hf _)
  · exact fail

lemma name_self : Echoes t look b b' Reader.name Reader.name id := by
  have hname : Echoes t look b b' (Reader.name >>= Pure.pure) (Reader.name >>= Pure.pure) id :=
    name fun word => pure rfl
  rwa [bind_pure] at hname

lemma optional {f f' : Option α → Reader β} (h : ∀ {c c'}, Echoes false true c c' r r' φ)
    (hf : ∀ {c c'} o o', o'.map φ = o.map φ → Echoes true look c c' (f o) (f' o') ψ) :
    Echoes t look b b'
      (Reader.accept k >>= fun found => if found then some <$> r >>= f else Pure.pure none >>= f)
      (Reader.accept k >>= fun found => if found then some <$> r' >>= f' else Pure.pure none >>= f')
        ψ := by
  refine accept ?_ (hf none none rfl).any
  have hsome : Echoes false true (b - 1) (b' - 1) (some <$> r) (some <$> r') (Option.map φ) :=
    h.map fun a a' ha => congrArg some ha
  exact hsome.before fun o o' ho => (hf o o' ho).any

/-! ### Repetition

A part is read again and takes something, so the numbers that bound repetitions are large enough for
both readers: if one of them has no number left, there is nothing to take. -/

section Numbers

variable {f : Nat → Reader α} {n : Nat}

/-- A number that bounds how far the second reader goes is large enough if it is not below the
number of tokens that come. -/
lemma of_succ (h : ∀ m, b' ≤ m + 1 → Echoes t look b b' r (f (m + 1)) φ)
    (hzero : t = true ∨ ∀ file last, f 0 ⟨file, [], last⟩ = f 1 ⟨file, [], last⟩) (hn : b' ≤ n) :
    Echoes t look b b' r (f n) φ := by
  cases n with
  | succ m => exact h m hn
  | zero =>
    intro c a d hc hr
    obtain ⟨ts, hts, htakes, hreads⟩ := h 0 (Nat.le_succ_of_le hn) c a d hc hr
    refine ⟨ts, hts, htakes, fun follow hlook hfollow => ?_⟩
    obtain ⟨rfl, rfl⟩ : ts = [] ∧ follow = [] := by
      simpa using Nat.le_zero.1 (Nat.le_trans hfollow hn)
    rcases hzero with ht | hzero
    · exact absurd (htakes ht) (Nat.lt_irrefl 0)
    · intro file taken rest last htaken hrest
      obtain rfl := map_eq_nil_iff.1 htaken
      obtain rfl := map_eq_nil_iff.1 hrest
      obtain ⟨a', last', hr, ha⟩ := hreads [] hlook hfollow file [] [] last rfl rfl
      exact ⟨a', last', (hzero file last).trans hr, ha⟩

lemma of_nothing {r'' : Reader α} {ψ : α → δ} (h : Echoes true look 0 b r r' φ) :
    Echoes t look 0 b' r r'' ψ := by
  intro c a d hc hr
  obtain ⟨ts, hts, htakes, -⟩ := h c a d hc hr
  have hlength := congrArg length hts
  rw [length_append, c.length_kinds] at hlength
  have hpos := htakes rfl
  omega

lemma pure_of_end {a : α} (h : Reads r' [] [] fun a' => φ a' = φ a) :
    Echoes false true 0 b' (Pure.pure a) r' φ := by
  intro c x d hc hr
  cases hr
  have hend : c.kinds = [] := by simpa [Cursor.kinds] using hc
  refine ⟨[], rfl, nofun, fun follow hlook _ => ?_⟩
  obtain rfl : follow = [] := by simpa [hend] using hlook rfl
  exact h

end Numbers

section Lists

variable {part : Reader α} {close separator : Symbol} {n n' : Nat}
  (hpart : ∀ {b b'}, Echoes true true b b' part part φ)

include hpart

lemma manyUntilUpTo (hn' : b' ≤ n') :
    Echoes true false n b' (manyUntilUpTo close part n) (manyUntilUpTo close part n')
      (List.map φ) := by
  induction n generalizing n' b' with
  | zero => exact fail
  | succ n ih =>
    refine of_succ (fun m hm => ?_) (.inl rfl) hn'
    refine accept (pure rfl) (hpart.bind (t := true) (fun a a' ha => ?_) fun _ => .inr rfl)
    exact (ih (Nat.sub_le_of_le_add hm)).andThen fun as as' has => pure (by simp [ha, has])

lemma manyUntil : Echoes t look b b' (manyUntil close part) (manyUntil close part) (List.map φ) :=
  looking (remaining fun _ _ _ _ => manyUntilUpTo hpart (Nat.le_refl _))

lemma separatedUpTo (hn' : b' ≤ n') :
    Echoes true true n b' (separatedUpTo separator part n) (separatedUpTo separator part n')
      (List.map φ) := by
  induction n generalizing n' b' with
  | zero =>
    have hone :
        Echoes true true 0 b' (part >>= fun a => Pure.pure [a]) (part >>= fun a => Pure.pure [a])
        (List.map φ) :=
      hpart.andThen fun a a' ha => pure (by simp [ha])
    exact hone.of_nothing
  | succ n ih =>
    refine of_succ (fun m hm => ?_) (.inl rfl) hn'
    refine hpart.bind (t := false) (fun a a' ha => ?_) .inl
    refine accept ?_ (pure (by simp [ha]))
    exact ((ih (show b' - 1 - 1 ≤ m by omega)).andThen
      fun as as' has => pure (by simp [ha, has])).mono nofun (Nat.sub_le n 1) (Nat.le_refl _)

lemma separated :
    Echoes t true b b' (separated separator part) (separated separator part) (List.map φ) :=
  any (remaining fun _ _ _ _ => separatedUpTo hpart (Nat.le_refl _))

lemma listed : Echoes t look b b' (listed close part) (listed close part) (List.map φ) :=
  accept (pure rfl) ((separated hpart).before fun _ _ has => expect (pure has))

lemma listedLooselyUpTo (hn' : b' ≤ n') :
    Echoes true false n b' (listedLooselyUpTo close part n) (listedLooselyUpTo close part n')
      (List.map φ) := by
  induction n generalizing n' b' with
  | zero => exact fail
  | succ n ih =>
    refine of_succ (fun m hm => ?_) (.inl rfl) hn'
    refine accept (pure rfl) (hpart.bind (t := true) (fun a a' ha => ?_) fun _ => .inr rfl)
    refine accept ?_ (expect (pure (by simp [ha])))
    exact ((ih (show b' - 1 - 1 ≤ m by omega)).andThen
      fun as as' has => pure (by simp [ha, has])).mono nofun (Nat.sub_le n 1) (Nat.le_refl _)

lemma listedLoosely :
    Echoes t look b b' (listedLoosely close part) (listedLoosely close part) (List.map φ) :=
  looking (remaining fun _ _ _ _ => listedLooselyUpTo hpart (Nat.le_refl _))

end Lists

end Echoes

end Reader

end Ownership.Sketch
