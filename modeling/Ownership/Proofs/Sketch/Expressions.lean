import Ownership.Proofs.Sketch.Printing
import Ownership.Proofs.Sketch.Reading

/-!
# Reading types and expressions back

What is printed is read as it was, but for its spans. An expression is printed for a place that
needs some level (`Expr.tokensAt`). The reader of that level takes it back where no token comes next
that goes on on this level or a tighter one (`Stops`). Operators of one level group to the left, so
they are read along the spine of an expression, from its leftmost operand on.
-/

namespace Ownership.Sketch

open List

variable {follow : List TokenKind} {n needed level m : Nat} {e : Expr} {t : TokenKind}
  {op? : TokenKind → Option BinaryOp} {steps : List (BinaryOp × Expr)} {r : Reader Expr}

open Reader

/-! ### Without spans -/

def TypeExpr.bare : TypeExpr → TypeExpr
  | named name _ => .named name .unknown
  | ref inner mutable => .ref inner.bare mutable
  | box inner => .box inner.bare

mutual

def Expr.bare : Expr → Expr
  | .numeral digits _ => .numeral digits .unknown
  | .truth value _ => .truth value .unknown
  | .text value _ => .text value .unknown
  | .var name _ => .var name .unknown
  | .field e name _ => .field e.bare name .unknown
  | .deref e _ => .deref e.bare .unknown
  | .borrow e mutable _ => .borrow e.bare mutable .unknown
  | .call callee args _ => .call callee (Expr.bareAll args) .unknown
  | .binary op l r _ => .binary op l.bare r.bare .unknown
  | .variant typeName arm args _ => .variant typeName arm (Expr.bareAll args) .unknown

def Expr.bareAll : List Expr → List Expr
  | [] => []
  | e :: rest => e.bare :: Expr.bareAll rest

end

lemma Expr.bareAll_eq_map (es : List Expr) : Expr.bareAll es = es.map Expr.bare := by
  induction es with
  | nil => simp [Expr.bareAll]
  | cons e es ih => simp [Expr.bareAll, ih]

lemma Expr.tokensAll_eq_map (es : List Expr) : Expr.tokensAll es = es.map Expr.tokens := by
  induction es with
  | nil => simp [Expr.tokensAll]
  | cons e es ih => simp [Expr.tokensAll, ih]

lemma map_eq_map_of_forall₂ {α β γ : Type} {f : α → γ} {g : β → γ} {xs : List α} {ys : List β}
    (h : List.Forall₂ (fun x y => g y = f x) xs ys) : ys.map g = xs.map f := by
  induction h with
  | nil => rfl
  | cons hxy _ ih => simp [hxy, ih]

/-! ### Types -/

lemma Reader.Reads.flag {β : Type} {k : Keyword} {stands : Bool} {f : Bool → Reader β}
    {ts : List TokenKind} {Q : β → Prop} (hne : (ts ++ follow).head? ≠ some (.keyword k))
    (h : Reads (f stands) ts follow Q) :
    Reads (hasKeyword k >>= f) (flag k stands ++ ts) follow Q := by
  cases stands with
  | false => exact .accept_of_ne hne h
  | true => exact .accept h

lemma TypeExpr.exists_tokens_eq_cons (e : TypeExpr) :
    ∃ t more, e.tokens = t :: more ∧ t ≠ .keyword .mutable := by
  cases e with
  | named name loc | ref inner mutable | box inner => exact ⟨_, _, rfl, by simp⟩

lemma reads_typeExpr (e : TypeExpr) (h : e.tokens.length ≤ n) (follow : List TokenKind) :
    Reads (typeExpr n) e.tokens follow fun e' => e'.bare = e.bare := by
  induction e generalizing n follow with
  | named name loc =>
    obtain ⟨n, rfl⟩ := Nat.exists_eq_add_one.2 (Nat.lt_of_lt_of_le Nat.zero_lt_one h)
    refine .here fun start => .peek?_cons (.skip ?_)
    exact .spanFrom fun loc => .pure rfl
  | ref inner mutable ih =>
    obtain ⟨n, rfl⟩ := Nat.exists_eq_add_one.2 (Nat.lt_of_lt_of_le (Nat.zero_lt_succ _) h)
    obtain ⟨t, more, hinner, ht⟩ := inner.exists_tokens_eq_cons
    have hn : inner.tokens.length ≤ n := by
      simp only [TypeExpr.tokens, length_cons, length_append] at h
      omega
    refine .here fun start => .peek?_cons (.skip (.flag ?_ ?_))
    · simpa [hinner] using ht
    · exact .bind_last (ih hn follow) fun e' he' => .pure (by simp [TypeExpr.bare, he'])
  | box inner ih =>
    obtain ⟨n, rfl⟩ := Nat.exists_eq_add_one.2 (Nat.lt_of_lt_of_le (Nat.zero_lt_succ _) h)
    have hn : inner.tokens.length ≤ n := by
      simp only [TypeExpr.tokens, length_cons, length_append] at h
      omega
    refine .here fun start => .peek?_cons (.skip (.expect ?_))
    refine .bind (ih hn _) fun e' he' => ?_
    exact .expect (.pure (by simp [TypeExpr.bare, he']))

/-! ### Levels -/

/-- An expression as it is printed in a place that needs a level. -/
def Expr.tokensAt (needed : Nat) (e : Expr) : List TokenKind := enclosed needed e.level e.tokens

@[simp] lemma Expr.tokensAt_zero (e : Expr) : e.tokensAt 0 = e.tokens := by
  simp [tokensAt, enclosed]

lemma Expr.tokensAt_of_le (h : needed ≤ e.level) : e.tokensAt needed = e.tokens := by
  simp [tokensAt, enclosed, Nat.not_lt.2 h]

lemma Expr.tokensAt_of_lt (h : e.level < needed) :
    e.tokensAt needed = .symbol .openParen :: (e.tokens ++ [.symbol .closeParen]) := by
  simp [tokensAt, enclosed, h]

/-- Only an expression of just this level is printed differently where the next level is needed. -/
lemma Expr.tokensAt_succ (h : e.level ≠ needed) : e.tokensAt (needed + 1) = e.tokensAt needed := by
  rcases Nat.lt_or_gt_of_ne h with hlt | hgt
  · rw [tokensAt_of_lt hlt, tokensAt_of_lt (Nat.lt_succ_of_lt hlt)]
  · rw [tokensAt_of_le (Nat.le_of_lt hgt), tokensAt_of_le hgt]

/-- The level on which a token goes on after an operand. -/
def TokenKind.grip? : TokenKind → Option Nat
  | symbol .eitherOr => some 0
  | symbol .bothAnd => some 1
  | symbol .equal | symbol .differs | symbol .less | symbol .atMost | symbol .greater
  | symbol .atLeast => some 2
  | symbol .plus | symbol .minus | symbol .star => some 3
  | symbol .dot => some 5
  | symbol .openParen | symbol .path => some 6
  | _ => none

/-- No token comes next that goes on on this level or a tighter one. -/
def Stops (level : Nat) (follow : List TokenKind) : Prop :=
  ∀ t ∈ follow.head?, ∀ l ∈ t.grip?, l < level

lemma Stops.mono {level' : Nat} (h : Stops level follow) (hle : level ≤ level') :
    Stops level' follow :=
  fun t ht l hl => Nat.lt_of_lt_of_le (h t ht l hl) hle

lemma stops_cons {more : List TokenKind} : Stops level (t :: more) ↔ ∀ l ∈ t.grip?, l < level := by
  simp [Stops]

lemma grip?_symbol (op : BinaryOp) : (TokenKind.symbol op.symbol).grip? = some op.level := by
  cases op <;> rfl

/-- The operators of a level, by their tokens. -/
structure OperatorsAt (op? : TokenKind → Option BinaryOp) (level : Nat) : Prop where
  found : ∀ op : BinaryOp, op.level = level → op? (.symbol op.symbol) = some op
  stop : ∀ t : TokenKind, (∀ l ∈ t.grip?, l < level) → op? t = none

lemma OperatorsAt.none_of_stops (h : OperatorsAt op? level) (hs : Stops level follow) :
    follow.head?.bind op? = none := by
  cases follow with
  | nil => rfl
  | cons t more => exact h.stop t (stops_cons.1 hs)

lemma operatorsAt_or : OperatorsAt orOp? 0 where
  found op hop := by cases op <;> simp_all [BinaryOp.level, BinaryOp.symbol, orOp?]
  stop t ht := by
    cases t with
    | symbol s => cases s <;> simp_all [TokenKind.grip?, orOp?]
    | _ => rfl

lemma operatorsAt_and : OperatorsAt andOp? 1 where
  found op hop := by cases op <;> simp_all [BinaryOp.level, BinaryOp.symbol, andOp?]
  stop t ht := by
    cases t with
    | symbol s => cases s <;> simp_all [TokenKind.grip?, andOp?]
    | _ => rfl

lemma operatorsAt_comparison : OperatorsAt comparison? 2 where
  found op hop := by cases op <;> simp_all [BinaryOp.level, BinaryOp.symbol, comparison?]
  stop t ht := by
    cases t with
    | symbol s => cases s <;> simp_all [TokenKind.grip?, comparison?]
    | _ => rfl

lemma operatorsAt_arithmetic : OperatorsAt arithmetic? 3 where
  found op hop := by cases op <;> simp_all [BinaryOp.level, BinaryOp.symbol, arithmetic?]
  stop t ht := by
    cases t with
    | symbol s => cases s <;> simp_all [TokenKind.grip?, arithmetic?]
    | _ => rfl

/-- The reader takes back every expression that is printed for a level in at most `n` tokens. -/
def ReadsAt (r : Reader Expr) (level n : Nat) : Prop :=
  ∀ (e : Expr) (follow : List TokenKind), (e.tokensAt level).length ≤ n → Stops level follow →
    Reads r (e.tokensAt level) follow fun e' => e'.bare = e.bare

/-! ### Operators that group to the left -/

/-- The operators of a level with their right operands. -/
def spineTokens (level : Nat) (steps : List (BinaryOp × Expr)) : List TokenKind :=
  steps.flatMap fun step => .symbol step.1.symbol :: step.2.tokensAt (level + 1)

/-- The expression that operators and right operands make of a first operand. -/
def grouped (first : Expr) (steps : List (BinaryOp × Expr)) : Expr :=
  steps.foldl (fun left step => .binary step.1 left step.2.bare .unknown) first

lemma Expr.exists_spine {level : Nat} (h2 : level ≠ 2) (h4 : level < 4) (e : Expr) :
    ∃ (first : Expr) (steps : List (BinaryOp × Expr)), (∀ step ∈ steps, step.1.level = level) ∧
      e.tokensAt level = first.tokensAt (level + 1) ++ spineTokens level steps ∧
      e.bare = grouped first.bare steps := by
  by_cases hlevel : e.level = level
  · match e with
    | .binary op l r loc =>
      obtain rfl : op.level = level := hlevel
      obtain ⟨first, steps, hsteps, htokens, hbare⟩ := Expr.exists_spine h2 h4 l
      refine ⟨first, steps ++ [(op, r)], ?_, ?_, ?_⟩
      · intro step hstep
        rcases mem_append.1 hstep with hstep | hstep
        · exact hsteps step hstep
        · obtain rfl := mem_singleton.1 hstep
          rfl
      · rw [Expr.tokensAt_of_le (Nat.le_refl op.level), Expr.tokens, BinaryOp.leftLevel_eq_level h2,
          ← Expr.tokensAt, ← Expr.tokensAt, htokens]
        simp [spineTokens]
      · simp [Expr.bare, grouped, hbare]
    | .numeral .. | .truth .. | .text .. | .var .. | .field .. | .deref .. | .borrow .. | .call ..
    | .variant .. =>
      simp only [Expr.level] at hlevel
      omega
  · exact ⟨e, [], by simp, by simp [spineTokens, Expr.tokensAt_succ hlevel], rfl⟩

lemma Stops.spineTokens (hs : Stops level follow) (hsteps : ∀ step ∈ steps, step.1.level = level) :
    Stops (level + 1) (spineTokens level steps ++ follow) := by
  cases steps with
  | nil => exact hs.mono (Nat.le_succ level)
  | cons step steps =>
    have hstep : step.1.level = level := hsteps step (by simp)
    simp [Sketch.spineTokens, stops_cons, grip?_symbol, hstep]

lemma reads_chainUpTo (hops : OperatorsAt op? level) (hr : ReadsAt r (level + 1) n) (start : Spot)
    (left : Expr) (hsteps : ∀ step ∈ steps, step.1.level = level)
    (hn : (spineTokens level steps).length ≤ n) (hm : steps.length ≤ m) (hs : Stops level follow) :
    Reads (chainUpTo op? r start m left) (spineTokens level steps) follow
      fun e => e.bare = grouped left.bare steps := by
  induction steps generalizing m left with
  | nil =>
    cases m with
    | zero => exact .pure rfl
    | succ m =>
      refine .peek? ?_
      have hnone : ((spineTokens level [] ++ follow).head?).bind op? = none :=
        hops.none_of_stops hs
      rw [hnone]
      exact .pure rfl
  | cons step steps ih =>
    obtain ⟨m, rfl⟩ := Nat.exists_eq_add_one.2 (Nat.lt_of_lt_of_le (Nat.zero_lt_succ _) hm)
    have hlevel : step.1.level = level := hsteps step (by simp)
    have hop : op? (.symbol step.1.symbol) = some step.1 := hops.found step.1 hlevel
    have htokens : spineTokens level (step :: steps) =
        .symbol step.1.symbol :: (step.2.tokensAt (level + 1) ++ spineTokens level steps) := by
      simp [spineTokens]
    simp only [htokens, length_cons, length_append] at hn hm ⊢
    have hstops : Stops (level + 1) (spineTokens level steps ++ follow) :=
      hs.spineTokens fun s h => hsteps s (by simp [h])
    refine .peek?_cons ?_
    rw [Option.bind_some, hop]
    refine .skip (.bind (hr step.2 _ (by omega) hstops) fun right hright => ?_)
    refine .spanFrom fun loc => ?_
    refine (ih (.binary step.1 left right loc) (fun s h => hsteps s (by simp [h])) (by omega)
      (by omega)).mono fun e he => ?_
    simpa [grouped, Expr.bare, hright] using he

/-- Each level that groups to the left reads its expressions if the next level does. -/
lemma ReadsAt.chain (hops : OperatorsAt op? level) (h2 : level ≠ 2) (h4 : level < 4)
    (hr : ReadsAt r (level + 1) n) : ReadsAt (chain op? r) level n := by
  intro e follow hn hs
  obtain ⟨first, steps, hsteps, htokens, hbare⟩ := e.exists_spine h2 h4
  rw [htokens, length_append] at hn
  have hlength : steps.length ≤ (spineTokens level steps).length :=
    Reads.length_le_length_flatMap fun _ _ => cons_ne_nil _ _
  rw [htokens, hbare]
  refine .here fun start =>
    .bind (hr first _ (by omega) (hs.spineTokens hsteps)) fun left hleft => ?_
  rw [← hleft]
  refine .remaining (reads_chainUpTo hops hr start left hsteps (by omega) ?_ hs)
  rw [length_append]
  omega

lemma reads_compared (hr : ReadsAt r 3 n) : ReadsAt (compared r) 2 n := by
  intro e follow hn hs
  have hnone : follow.head?.bind comparison? = none := operatorsAt_comparison.none_of_stops hs
  by_cases hlevel : e.level = 2
  · match e with
    | .binary op l r' loc =>
      have hlevel' : op.level = 2 := hlevel
      have hop : comparison? (.symbol op.symbol) = some op :=
        operatorsAt_comparison.found op hlevel'
      have hleft : op.leftLevel = 3 := BinaryOp.leftLevel_eq_three hlevel'
      have htokens : (Expr.binary op l r' loc).tokensAt 2 =
          l.tokensAt 3 ++ .symbol op.symbol :: r'.tokensAt 3 := by
        rw [Expr.tokensAt_of_le (Nat.le_of_eq hlevel.symm), Expr.tokens, hleft, hlevel']
        rfl
      simp only [htokens, length_append, length_cons] at hn ⊢
      have hstops : Stops 3 (.symbol op.symbol :: r'.tokensAt 3 ++ follow) := by
        simp [stops_cons, grip?_symbol, hlevel']
      refine .here fun start => .bind (hr l _ (by omega) hstops) fun left hleft => ?_
      refine .peek?_cons ?_
      rw [Option.bind_some, hop]
      refine .skip ?_
      refine .bind_last (hr r' _ (by omega) (hs.mono (by omega))) fun right hright => ?_
      exact .spanFrom fun loc => .pure (by simp [Expr.bare, hleft, hright])
    | .numeral .. | .truth .. | .text .. | .var .. | .field .. | .deref .. | .borrow .. | .call ..
    | .variant .. => simp [Expr.level] at hlevel
  · rw [← Expr.tokensAt_succ hlevel] at hn ⊢
    refine .here fun start => ?_
    refine .bind_last (hr e _ hn (hs.mono (by omega))) fun left hleft => ?_
    refine .peek? ?_
    rw [nil_append, hnone]
    exact .pure hleft

lemma reads_exprOver (hr : ReadsAt r 4 n) : ReadsAt (exprOver r) 0 n :=
  have hsums : ReadsAt (chain arithmetic? r) 3 n :=
    .chain operatorsAt_arithmetic (by decide) (by decide) hr
  have hands : ReadsAt (chain andOp? (compared (chain arithmetic? r))) 1 n :=
    .chain operatorsAt_and (by decide) (by decide) (reads_compared hsums)
  .chain operatorsAt_or (by decide) (by decide) hands

/-! ### First tokens -/

/-- Tokens that an expression without operators starts with. -/
def TokenKind.startsAtom : TokenKind → Bool
  | name _ | numeral _ | text _ | keyword .yes | keyword .no | symbol .openParen => true
  | _ => false

def TokenKind.startsExpr (t : TokenKind) : Bool :=
  t.startsAtom || t = .symbol .star || t = .symbol .ampersand

lemma Expr.exists_tokensAt_five_eq_cons (e : Expr) :
    ∃ t more, e.tokensAt 5 = t :: more ∧ t.startsAtom := by
  match e with
  | .field e name loc =>
    obtain ⟨t, more, he, ht⟩ := Expr.exists_tokensAt_five_eq_cons e
    refine ⟨t, more ++ [.symbol .dot, .name name], ?_, ht⟩
    rw [Expr.tokensAt_of_le (Nat.le_refl 5), Expr.tokens, ← Expr.tokensAt, he, cons_append]
  | .numeral digits loc => exact ⟨.numeral digits, [], rfl, rfl⟩
  | .truth true loc => exact ⟨.keyword .yes, [], rfl, rfl⟩
  | .truth false loc => exact ⟨.keyword .no, [], rfl, rfl⟩
  | .text value loc => exact ⟨.text value, [], rfl, rfl⟩
  | .var name loc => exact ⟨.name name, [], rfl, rfl⟩
  | .call callee args loc => exact ⟨.name callee, _, rfl, rfl⟩
  | .variant typeName arm [] loc => exact ⟨.name typeName, _, rfl, rfl⟩
  | .variant typeName arm (e :: rest) loc => exact ⟨.name typeName, _, rfl, rfl⟩
  | .deref e loc | .borrow e mutable loc => exact ⟨.symbol .openParen, _, rfl, rfl⟩
  | .binary op l r loc =>
    exact ⟨.symbol .openParen, _, Expr.tokensAt_of_lt (Nat.lt_succ_of_lt op.level_lt), rfl⟩

lemma Expr.exists_tokens_eq_cons (e : Expr) : ∃ t more, e.tokens = t :: more ∧ t.startsExpr := by
  by_cases hlevel : 5 ≤ e.level
  · obtain ⟨t, more, he, ht⟩ := e.exists_tokensAt_five_eq_cons
    exact ⟨t, more, tokensAt_of_le hlevel ▸ he, by simp [TokenKind.startsExpr, ht]⟩
  · match e with
    | .binary op l r loc =>
      obtain ⟨t, more, hl, ht⟩ := Expr.exists_tokens_eq_cons l
      rcases Nat.lt_or_ge l.level op.leftLevel with hlt | hge
      · rw [Expr.tokens, ← Expr.tokensAt, Expr.tokensAt_of_lt hlt]
        exact ⟨.symbol .openParen, _, rfl, rfl⟩
      · rw [Expr.tokens, ← Expr.tokensAt, Expr.tokensAt_of_le hge, hl]
        exact ⟨t, _, rfl, ht⟩
    | .deref e loc => exact ⟨.symbol .star, _, rfl, rfl⟩
    | .borrow e mutable loc => exact ⟨.symbol .ampersand, _, rfl, rfl⟩
    | .numeral .. | .truth .. | .text .. | .var .. | .field .. | .call .. | .variant .. =>
      exact absurd (Nat.le_refl 5) hlevel

lemma Expr.exists_tokensAt_eq_cons (needed : Nat) (e : Expr) :
    ∃ t more, e.tokensAt needed = t :: more ∧ t.startsExpr := by
  rcases Nat.lt_or_ge e.level needed with hlt | hge
  · rw [tokensAt_of_lt hlt]
    exact ⟨.symbol .openParen, _, rfl, rfl⟩
  · rw [tokensAt_of_le hge]
    exact e.exists_tokens_eq_cons

/-! ### Atoms and fields -/

def fieldTokens (names : List String) : List TokenKind :=
  names.flatMap fun name => [.symbol .dot, .name name]

/-- The expression that field accesses make of a subject. -/
def fieldOf (subject : Expr) (names : List String) : Expr :=
  names.foldl (fun e name => .field e name .unknown) subject

lemma Expr.exists_fields (e : Expr) :
    ∃ (first : Expr) (names : List String), (∀ e' name loc, first ≠ .field e' name loc) ∧
      e.tokensAt 5 = first.tokensAt 5 ++ fieldTokens names ∧
      e.bare = fieldOf first.bare names := by
  match e with
  | .field e name loc =>
    obtain ⟨first, names, hfirst, htokens, hbare⟩ := Expr.exists_fields e
    refine ⟨first, names ++ [name], hfirst, ?_, ?_⟩
    · rw [Expr.tokensAt_of_le (Nat.le_refl 5), Expr.tokens, ← Expr.tokensAt, htokens]
      simp [fieldTokens]
    · simp [Expr.bare, fieldOf, hbare]
  | .numeral .. | .truth .. | .text .. | .var .. | .deref .. | .borrow .. | .call .. | .binary ..
  | .variant .. => exact ⟨_, [], by simp, (append_nil _).symm, rfl⟩

lemma reads_fieldsUpTo {names : List String} (start : Spot) (subject : Expr) (hm : names.length ≤ m)
    (hs : Stops 5 follow) :
    Reads (fieldsUpTo start m subject) (fieldTokens names) follow
      fun e => e.bare = fieldOf subject.bare names := by
  induction names generalizing m subject with
  | nil =>
    cases m with
    | zero => exact .pure rfl
    | succ m =>
      refine .choose_of_ne ?_ (.pure rfl)
      intro hdot
      exact absurd (hs _ hdot 5 rfl) (Nat.lt_irrefl 5)
  | cons name names ih =>
    obtain ⟨m, rfl⟩ := Nat.exists_eq_add_one.2 (Nat.lt_of_lt_of_le (Nat.zero_lt_succ _) hm)
    refine .choose (.name (.spanFrom fun loc => ?_))
    exact ih (.field subject name loc) (Nat.le_of_succ_le_succ hm)

lemma reads_args (hr : ReadsAt r 0 n) {args : List Expr}
    (hn : (commas (Expr.tokensAll args)).length ≤ n) (follow : List TokenKind) :
    Reads (listed .closeParen r) (commas (Expr.tokensAll args) ++ [.symbol .closeParen]) follow
      fun args' => Expr.bareAll args' = Expr.bareAll args := by
  rw [Expr.tokensAll_eq_map] at hn ⊢
  have hreads : ∀ e ∈ args, ∀ t more, t.grip? = none →
      Reads r e.tokens (t :: more) fun e' => e'.bare = e.bare := by
    intro e he t more ht
    have hlength := Reads.length_le_of_mem (.symbol .comma)
      (mem_map_of_mem (f := Expr.tokens) he)
    simpa using hr e (t :: more) (by simpa using Nat.le_trans hlength hn) (by simp [stops_cons, ht])
  have hstart : ∀ e ∈ args, ∃ t more, e.tokens = t :: more ∧ t ≠ .symbol .closeParen := by
    intro e _
    obtain ⟨t, more, he, ht⟩ := e.exists_tokens_eq_cons
    refine ⟨t, more, he, fun hclose => ?_⟩
    simp [hclose, TokenKind.startsExpr, TokenKind.startsAtom] at ht
  refine (Reads.listed hreads hstart rfl rfl (by decide)).mono fun args' h => ?_
  rw [Expr.bareAll_eq_map, Expr.bareAll_eq_map, map_eq_map_of_forall₂ h]

lemma reads_atom (hr : ReadsAt r 0 n) (he : ∀ e' name loc, e ≠ .field e' name loc)
    (hn : (e.tokensAt 5).length ≤ n + 1) (hs : Stops 6 follow) :
    Reads (atom r) (e.tokensAt 5) follow fun e' => e'.bare = e.bare := by
  have hparen : follow.head? ≠ some (.symbol .openParen) := fun h =>
    absurd (hs _ h 6 rfl) (Nat.lt_irrefl 6)
  have hpath : follow.head? ≠ some (.symbol .path) := fun h =>
    absurd (hs _ h 6 rfl) (Nat.lt_irrefl 6)
  by_cases hlevel : 5 ≤ e.level
  · rw [Expr.tokensAt_of_le hlevel] at hn ⊢
    match e with
    | .numeral digits loc | .truth true loc | .truth false loc | .text value loc =>
      exact .here fun start => .peek?_cons
        (.skip (.spanFrom fun loc => .pure rfl))
    | .var name loc =>
      refine .here fun start => .peek?_cons (.skip ?_)
      refine .choose_of_ne hparen (.choose_of_ne hpath ?_)
      exact .spanFrom fun loc => .pure rfl
    | .call callee args loc =>
      have hargs : (commas (Expr.tokensAll args)).length ≤ n := by
        simp only [Expr.tokens, length_cons, length_append] at hn
        omega
      refine .here fun start => .peek?_cons (.skip (.choose ?_))
      refine .bind_last (reads_args hr hargs follow) fun args' h => ?_
      exact .spanFrom fun loc => .pure (by simp [Expr.bare, h])
    | .variant typeName arm [] loc =>
      refine .here fun start => .peek?_cons (.skip ?_)
      refine .choose_of_ne (by simp) (.choose (.name ?_))
      exact .choose_of_ne hparen (.spanFrom fun loc => .pure rfl)
    | .variant typeName arm (first :: rest) loc =>
      have hargs : (commas (Expr.tokensAll (first :: rest))).length ≤ n := by
        simp only [Expr.tokens, length_cons, length_append] at hn
        simp only [Expr.tokensAll]
        omega
      refine .here fun start => .peek?_cons (.skip ?_)
      refine .choose_of_ne (by simp) (.choose (.name (.choose ?_)))
      refine .bind_last (reads_args hr hargs follow) fun args' h => ?_
      exact .spanFrom fun loc => .pure (by simp [Expr.bare, h])
    | .field e name loc => exact absurd rfl (he e name loc)
    | .deref .. | .borrow .. => simp [Expr.level] at hlevel
    | .binary op l r loc =>
      have hop := op.level_lt
      simp only [Expr.level] at hlevel
      omega
  · rw [Expr.tokensAt_of_lt (Nat.lt_of_not_le hlevel)] at hn ⊢
    simp only [length_cons, length_append] at hn
    refine .here fun start => .peek?_cons (.skip ?_)
    have hread := hr e (.symbol .closeParen :: follow)
    simp only [Expr.tokensAt_zero] at hread
    refine .bind (hread (by omega) ?_) fun e' he' => .expect (.pure he')
    simp [stops_cons, TokenKind.grip?]

/-! ### Operands -/

lemma reads_postfix (hr : ReadsAt (exprOver (operand n)) 0 n) (hn : (e.tokensAt 5).length ≤ n + 1)
    (hs : Stops 5 follow) :
    Reads (operand (n + 1)) (e.tokensAt 5) follow fun e' => e'.bare = e.bare := by
  obtain ⟨first, names, hfirst, htokens, hbare⟩ := e.exists_fields
  obtain ⟨t, more, hcons, ht⟩ := first.exists_tokensAt_five_eq_cons
  rw [htokens, length_append] at hn
  rw [htokens, hbare, hcons, cons_append]
  have hnames : names.length ≤ (fieldTokens names).length :=
    Reads.length_le_length_flatMap fun _ _ => cons_ne_nil _ _
  have hstops : Stops 6 (fieldTokens names ++ follow) := by
    cases names with
    | nil => exact hs.mono (by decide)
    | cons name names => simp [fieldTokens, stops_cons, TokenKind.grip?]
  refine .here fun start => .peek?_cons ?_
  rw [← cons_append, ← hcons]
  split
  · next heq =>
    cases heq
    simp [TokenKind.startsAtom] at ht
  · next heq =>
    cases heq
    simp [TokenKind.startsAtom] at ht
  · refine .bind (reads_atom hr hfirst (by omega) hstops) fun subject hsubject => ?_
    rw [← hsubject]
    refine .remaining (reads_fieldsUpTo start subject ?_ hs)
    rw [length_append]
    omega

lemma reads_operand_succ (hr : ReadsAt (operand n) 4 n) : ReadsAt (operand (n + 1)) 4 (n + 1) := by
  intro e follow hn hs
  by_cases hlevel : e.level = 4
  · match e with
    | .deref e loc =>
      have htokens : (Expr.deref e loc).tokensAt 4 = .symbol .star :: e.tokensAt 4 := rfl
      rw [htokens, length_cons] at hn
      rw [htokens]
      refine .here fun start => .peek?_cons (.skip ?_)
      refine .bind_last (hr e follow (by omega) hs) fun e' he' => ?_
      exact .spanFrom fun loc => .pure (by simp [Expr.bare, he'])
    | .borrow e mutable loc =>
      have htokens : (Expr.borrow e mutable loc).tokensAt 4 =
          .symbol .ampersand :: (flag .mutable mutable ++ e.tokensAt 4) := rfl
      rw [htokens, length_cons, length_append] at hn
      rw [htokens]
      obtain ⟨t, more, hcons, ht⟩ := e.exists_tokensAt_eq_cons 4
      have hmutable : t ≠ .keyword .mutable := by
        rintro rfl
        simp [TokenKind.startsExpr, TokenKind.startsAtom] at ht
      refine .here fun start => .peek?_cons (.skip (.flag ?_ ?_))
      · simpa [hcons] using hmutable
      · refine .bind_last (hr e follow (by omega) hs) fun e' he' => ?_
        exact .spanFrom fun loc => .pure (by simp [Expr.bare, he'])
    | .numeral .. | .truth .. | .text .. | .var .. | .field .. | .call .. | .variant .. =>
      simp [Expr.level] at hlevel
    | .binary op l r loc => exact absurd op.level_lt (Nat.not_lt_of_le (Nat.le_of_eq hlevel.symm))
  · rw [← Expr.tokensAt_succ hlevel] at hn ⊢
    exact reads_postfix (reads_exprOver hr) hn (hs.mono (by decide))

lemma reads_operand (n : Nat) : ReadsAt (operand n) 4 n := by
  induction n with
  | zero =>
    intro e follow hn hs
    obtain ⟨t, more, hcons, -⟩ := e.exists_tokensAt_eq_cons 4
    simp [hcons] at hn
  | succ n ih => exact reads_operand_succ ih

/-- An expression is read back where no operator comes next. -/
theorem reads_expr (hn : e.tokens.length ≤ n) (ht : t.grip? = none) (more : List TokenKind) :
    Reads (expr n) e.tokens (t :: more) fun e' => e'.bare = e.bare := by
  have hread := reads_exprOver (reads_operand n) e (t :: more)
  rw [Expr.tokensAt_zero] at hread
  exact hread hn (by simp [stops_cons, ht])

end Ownership.Sketch
