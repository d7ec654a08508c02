import Ownership.Proofs.Sketch.Expressions

/-!
# Reading statements and declarations back

Whatever way a statement is printed, it is read as it was, but for its spans. The one thing to watch
is the token after a statement: an `else` there would go on with a branch.
-/

namespace Ownership.Sketch

open List

variable {α : Type} {xs : List α} {ts : List TokenKind}

open Reader

/-! ### Without spans -/

mutual

def Stmt.bare : Stmt → Stmt
  | .block b => .block b.bare
  | .declare name mutable type value _ =>
    .declare name mutable (type.map TypeExpr.bare) (value.map Expr.bare) .unknown
  | .assign target value _ => .assign target.bare value.bare .unknown
  | .evaluate value _ => .evaluate value.bare .unknown
  | .ret value _ => .ret (value.map Expr.bare) .unknown
  | .branch test t e _ => .branch test.bare t.bare (Block.bareOpt e) .unknown
  | .loop test body _ => .loop test.bare body.bare .unknown
  | .select scrutinee arms _ => .select scrutinee.bare (Arm.bareAll arms) .unknown

def Block.bare : Block → Block
  | .mk stmts _ => .mk (Stmt.bareAll stmts) .unknown

def Block.bareOpt : Option Block → Option Block
  | none => none
  | some b => some b.bare

def Stmt.bareAll : List Stmt → List Stmt
  | [] => []
  | s :: rest => s.bare :: Stmt.bareAll rest

def Arm.bareAll : List Arm → List Arm
  | [] => []
  | .mk variant binders byRef body _ :: rest =>
    .mk variant binders byRef body.bare .unknown :: Arm.bareAll rest

end

def Arm.bare : Arm → Arm
  | .mk variant binders byRef body _ => .mk variant binders byRef body.bare .unknown

lemma Stmt.bareAll_eq_map (ss : List Stmt) : Stmt.bareAll ss = ss.map Stmt.bare := by
  induction ss with
  | nil => simp [Stmt.bareAll]
  | cons s ss ih => simp [Stmt.bareAll, ih]

lemma Arm.bareAll_eq_map (as : List Arm) : Arm.bareAll as = as.map Arm.bare := by
  induction as with
  | nil => simp [Arm.bareAll]
  | cons a as ih =>
    cases a
    simp [Arm.bareAll, Arm.bare, ih]

/-! ### Printed parts -/

lemma length_le_length_flatMap_of_mem (tok : α → List TokenKind) {x : α} (h : x ∈ xs) :
    (tok x).length ≤ (xs.flatMap tok).length := by
  rw [flatMap_def]
  exact (sublist_flatten_of_mem (mem_map_of_mem h)).length_le

lemma Block.Prints.exists_eq_cons {b : Block} (h : b.Prints ts) :
    ∃ more, ts = .symbol .openBrace :: more := by
  cases h
  exact ⟨_, rfl⟩

lemma Stmt.Prints.exists_eq_cons {s : Stmt} (h : s.Prints ts) :
    ∃ t more, ts = t :: more ∧ t ≠ .keyword .otherwise ∧ t ≠ .symbol .closeBrace := by
  have hexpr : ∀ (e : Expr) (us : List TokenKind),
      ∃ t more, e.tokens ++ us = t :: more ∧ t ≠ .keyword .otherwise ∧ t ≠ .symbol .closeBrace := by
    intro e us
    obtain ⟨t, more, he, ht⟩ := e.exists_tokens_eq_cons
    refine ⟨t, more ++ us, by rw [he, cons_append], ?_, ?_⟩ <;>
    · rintro rfl
      simp [TokenKind.startsExpr, TokenKind.startsAtom] at ht
  cases h with
  | block hb =>
    obtain ⟨more, rfl⟩ := hb.exists_eq_cons
    exact ⟨_, more, rfl, by simp, by simp⟩
  | assign target value loc => exact hexpr target _
  | evaluate value loc => exact hexpr value _
  | declare | retNothing | ret | branch | loop | select => exact ⟨_, _, rfl, by simp, by simp⟩

lemma Arm.Prints.exists_eq_cons {a : Arm} (h : a.Prints ts) :
    ∃ t more, ts = t :: more ∧ t ≠ .symbol .comma ∧ t ≠ .symbol .closeBrace := by
  cases h with
  | wildcard => exact ⟨_, _, rfl, by simp, by simp⟩
  | variant name binders byRef =>
    cases byRef
    · exact ⟨_, _, rfl, by simp, by simp⟩
    · exact ⟨_, _, rfl, by simp, by simp⟩

lemma PrintsEach.exists_parts {P : α → List TokenKind → Prop} (h : PrintsEach P xs ts) :
    ∃ parts : List (α × List TokenKind), xs = parts.map Prod.fst ∧ ts = parts.flatMap Prod.snd ∧
      ∀ part ∈ parts, P part.1 part.2 := by
  induction h with
  | nil => exact ⟨[], rfl, rfl, by simp⟩
  | @cons x xs ts us hx _ ih =>
    obtain ⟨parts, rfl, rfl, hparts⟩ := ih
    refine ⟨(x, ts) :: parts, rfl, by simp, ?_⟩
    intro part hpart
    rcases mem_cons.1 hpart with rfl | hpart
    · exact hx
    · exact hparts part hpart

/-! ### Statements -/

section

variable {depth n : Nat} {α β γ : Type} {follow ts : List TokenKind} {t : TokenKind}

/-- Statements are read back, if they are printed in at most `n` tokens. -/
def ReadsStmts (depth n : Nat) : Prop :=
  ∀ {s : Stmt} {ts : List TokenKind} (t : TokenKind) (more : List TokenKind), s.Prints ts →
    ts.length ≤ n → ts.length ≤ depth → t ≠ .keyword .otherwise →
    Reads (stmt depth n) ts (t :: more) fun s' => s'.bare = s.bare

lemma Reader.Reads.optional {s : Symbol} {r : Reader α} {g : Option α → Reader β} {part : Option γ}
    {tok : γ → List TokenKind} {rel : γ → α → Prop} {us : List TokenKind} {Q : β → Prop}
    (hread : ∀ x ∈ part, Reads r (tok x) (us ++ follow) (rel x))
    (hne : (us ++ follow).head? ≠ some (.symbol s))
    (hrest : ∀ part', Option.Rel rel part part' → Reads (g part') us follow Q) :
    Reads (hasSymbol s >>= fun found =>
        if found then some <$> r >>= g else Pure.pure none >>= g)
      (optional s (part.map tok) ++ us) follow Q := by
  cases part with
  | none =>
    refine .choose_of_ne hne ?_
    rw [pure_bind]
    exact hrest none .none
  | some x =>
    have hsome : Reads (some <$> r) (tok x) (us ++ follow) (Option.Rel rel (some x)) :=
      .map ((hread x rfl).mono fun a ha => .some ha)
    exact .choose (.bind hsome hrest)

lemma map_eq_map_of_rel {f : α → γ} {g : β → γ} {x : Option α} {y : Option β}
    (h : Option.Rel (fun a b => g b = f a) x y) : y.map g = x.map f := by
  cases h with
  | none => rfl
  | some h => simp [h]

lemma reads_declaration (start : Spot) (name : String) (mutable : Bool) (type : Option TypeExpr)
    (value : Option Expr) (loc : Span) (follow : List TokenKind)
    (htype : ∀ e ∈ type, e.tokens.length ≤ depth) (hvalue : ∀ e ∈ value, e.tokens.length ≤ depth) :
    Reads (declaration depth start)
      (flag .mutable mutable ++ .name name :: (Sketch.optional .colon (type.map TypeExpr.tokens) ++
        (Sketch.optional .assign (value.map Expr.tokens) ++ [.symbol .semicolon]))) follow
      fun s => s.bare = (Stmt.declare name mutable type value loc).bare := by
  refine .flag (by simp) (.name ?_)
  refine .optional (fun e he => reads_typeExpr e (htype e he) _) ?_ fun type' htype' => ?_
  · cases value <;> simp [Sketch.optional]
  refine .optional (fun e he => reads_expr (hvalue e he) rfl _) (by simp) ?_
  intro value' hvalue'
  refine .expect (.spanFrom fun loc => .pure ?_)
  simp [Stmt.bare, map_eq_map_of_rel htype', map_eq_map_of_rel hvalue']

lemma reads_evaluation (start : Spot) {e : Expr} (loc : Span) (follow : List TokenKind)
    (hn : e.tokens.length ≤ depth) :
    Reads (evaluation depth start) (e.tokens ++ [.symbol .semicolon]) follow
      fun s => s.bare = (Stmt.evaluate e loc).bare := by
  refine .bind (reads_expr hn rfl _) fun e' he => .choose_of_ne (by simp) ?_
  exact .expect (.spanFrom fun loc => .pure (by simp [Stmt.bare, he]))

lemma reads_assignment (start : Spot) {target value : Expr} (loc : Span) (follow : List TokenKind)
    (htarget : target.tokens.length ≤ depth) (hvalue : value.tokens.length ≤ depth) :
    Reads (evaluation depth start)
      (target.tokens ++ .symbol .assign :: (value.tokens ++ [.symbol .semicolon])) follow
      fun s => s.bare = (Stmt.assign target value loc).bare := by
  refine .bind (reads_expr htarget rfl _) fun target' htarget' => .choose ?_
  refine .bind (reads_expr hvalue rfl _) fun value' hvalue' => ?_
  exact .expect (.spanFrom fun loc =>
    .pure (by simp [Stmt.bare, htarget', hvalue']))

lemma reads_stmt_of_startsExpr {s : Stmt} (ht : t.startsExpr)
    (h : ∀ start, Reads (evaluation depth start) (t :: ts) follow fun s' => s'.bare = s.bare) :
    Reads (stmt depth (n + 1)) (t :: ts) follow fun s' => s'.bare = s.bare := by
  refine .here fun start => .peek?_cons ?_
  split
  case h_7 => exact h start
  all_goals
    next heq =>
    cases heq
    simp [TokenKind.startsExpr, TokenKind.startsAtom] at ht

lemma reads_block {b : Block} (hstmts : ReadsStmts depth n) (hb : b.Prints ts)
    (hn : ts.length ≤ n + 2) (hdepth : ts.length ≤ depth) (follow : List TokenKind) :
    Reads (blockOf (stmt depth n)) ts follow fun b' => b'.bare = b.bare := by
  cases hb with
  | mk loc hss =>
    obtain ⟨parts, rfl, rfl, hparts⟩ := hss.exists_parts
    simp only [length_cons, length_append, length_nil] at hn hdepth
    have hreads : ∀ part ∈ parts, ∀ t more, t ≠ .keyword .otherwise →
        Reads (stmt depth n) part.2 (t :: more) fun s => s.bare = part.1.bare := by
      intro part hpart t more ht
      have hlength := length_le_length_flatMap_of_mem Prod.snd hpart
      exact hstmts t more (hparts part hpart) (by omega) (by omega) ht
    have hstart : ∀ part ∈ parts, ∃ t more, part.2 = t :: more ∧ t ≠ .keyword .otherwise ∧
        t ≠ .symbol .closeBrace := fun part hpart => (hparts part hpart).exists_eq_cons
    refine .here fun start => .expect ?_
    refine .bind_last (.manyUntil hreads hstart (by simp)) fun ss hss => ?_
    refine .spanFrom fun loc => .pure ?_
    simp only [Block.bare, Stmt.bareAll_eq_map, map_eq_map_of_forall₂ hss, map_map]
    rfl

lemma reads_elsePart {e : Option Block} (hstmts : ReadsStmts depth n) (he : Block.PrintsElse e ts)
    (hn : ts.length ≤ n + 1) (hdepth : ts.length ≤ depth) (ht : t ≠ .keyword .otherwise)
    (more : List TokenKind) :
    Reads (elsePart (stmt depth n)) ts (t :: more)
      fun e' => Block.bareOpt e' = Block.bareOpt e := by
  cases he with
  | none => exact .choose_of_ne (by simpa using ht) (.pure rfl)
  | block hb =>
    simp only [length_cons] at hn hdepth
    obtain ⟨more', hcons⟩ := hb.exists_eq_cons
    refine .choose (.peek? ?_)
    rw [if_neg (by simp [hcons])]
    refine .map ((reads_block hstmts hb (by omega) (by omega) _).mono fun b' hb' => ?_)
    simp [Block.bareOpt, hb']
  | branch outer hs =>
    simp only [length_cons] at hn hdepth
    have hread := hstmts t more hs (by omega) (by omega) ht
    cases hs with
    | branch test loc hthen helse =>
      refine .choose (.peek? ?_)
      rw [if_pos (by simp)]
      refine .here fun start => .bind_last hread fun s hs => ?_
      refine .spanFrom fun loc => .pure ?_
      simp [Block.bareOpt, Block.bare, Stmt.bareAll, hs]

lemma reads_binder (word : String) (follow : List TokenKind) :
    Reads binder [binderToken word] follow (Eq word) := by
  unfold binderToken
  split
  · next h => exact .choose (.pure h)
  · refine .choose_of_ne (by simp) ?_
    rw [← bind_pure name]
    exact .name (.pure rfl)

lemma reads_wildcard (follow : List TokenKind) :
    Reads pattern [.keyword .wildcard] follow fun p => p = {} :=
  .choose (.pure rfl)

lemma reads_pattern (name : String) (binders : List String) (byRef : Bool) (more : List TokenKind) :
    Reads pattern (patternTokens name binders byRef) (.symbol .yields :: more)
      fun p => p = { variant := some name, binders, byRef } := by
  refine .choose_of_ne (by cases byRef <;> simp [patternTokens, flag]) ?_
  refine .flag (by simp) (.name ?_)
  cases binders with
  | nil => exact .choose_of_ne (by simp) (.pure rfl)
  | cons binder rest =>
    have hreads : ∀ word ∈ binder :: rest, ∀ t more, True →
        Reads Sketch.binder [binderToken word] (t :: more) (Eq word) :=
      fun word _ t more _ => reads_binder word (t :: more)
    refine .choose ?_
    refine .bind (.separated hreads trivial trivial (by simp)) fun words hwords => ?_
    refine .expect (.pure ?_)
    rw [forall₂_eq_eq_eq] at hwords
    rw [hwords]

lemma reads_arm {a : Arm} (hstmts : ReadsStmts depth n) (ha : a.Prints ts) (hn : ts.length ≤ n + 3)
    (hdepth : ts.length ≤ depth) (ht : t ≠ .symbol .comma) (more : List TokenKind) :
    Reads (armOf (stmt depth n)) ts (t :: more) fun a' => a'.bare = a.bare := by
  -- Both forms go on alike after their pattern.
  have hrest : ∀ {p : Pattern} {body : Block} {us : List TokenKind} (start : Spot) (loc : Span),
      body.Prints us → us.length ≤ n + 2 → us.length ≤ depth →
      Reads (do
          symbol .yields
          let body ← blockOf (stmt depth n)
          let _ ← hasSymbol .comma
          return .mk p.variant p.binders p.byRef body (← spanFrom start) : Reader Arm)
        (.symbol .yields :: us) (t :: more)
        fun a' => a'.bare = (Arm.mk p.variant p.binders p.byRef body loc).bare := by
    intro p body us start loc hbody hus hdepth
    refine .expect (.bind_last (reads_block hstmts hbody hus hdepth _) fun b hb => ?_)
    refine .accept_of_ne (by simpa using ht) (.spanFrom fun loc => .pure ?_)
    simp [Arm.bare, hb]
  cases ha with
  | wildcard loc hbody =>
    simp only [length_append, length_cons] at hn hdepth
    refine .here fun start => .bind (reads_wildcard _) fun p hp => ?_
    subst hp
    exact hrest start loc hbody (by omega) (by omega)
  | variant name binders byRef loc hbody =>
    simp only [length_append, length_cons] at hn hdepth
    refine .here fun start => .bind (reads_pattern name binders byRef _) fun p hp => ?_
    subst hp
    exact hrest start loc hbody (by omega) (by omega)

/-- A statement is read back from its tokens if shorter ones are. -/
lemma reads_stmt_succ (hstmts : ReadsStmts depth n) : ReadsStmts depth (n + 1) := by
  intro s ts t more hs hn hdepth ht
  cases hs with
  | block hb =>
    have hread := reads_block hstmts hb (by omega) hdepth (t :: more)
    obtain ⟨rest, rfl⟩ := hb.exists_eq_cons
    refine .here fun start => .peek?_cons (.map (hread.mono fun b' hb' => ?_))
    simp [Stmt.bare, hb']
  | declare name mutable type value loc =>
    refine .here fun start => .peek?_cons (.skip ?_)
    refine reads_declaration start name mutable type value loc _ ?_ ?_
    · rintro e rfl
      simp only [length_cons, length_append, Option.map_some, Sketch.optional] at hdepth
      omega
    · rintro e rfl
      simp only [length_cons, length_append, Option.map_some, Sketch.optional] at hdepth
      omega
  | assign target value loc =>
    obtain ⟨first, rest, htarget, hfirst⟩ := target.exists_tokens_eq_cons
    simp only [length_cons, length_append] at hdepth
    have hread := fun start => reads_assignment start loc (t :: more)
      (show target.tokens.length ≤ depth by omega) (show value.tokens.length ≤ depth by omega)
    simp only [htarget, cons_append] at hread ⊢
    exact reads_stmt_of_startsExpr hfirst hread
  | evaluate value loc =>
    obtain ⟨first, rest, hvalue, hfirst⟩ := value.exists_tokens_eq_cons
    simp only [length_append] at hdepth
    have hread := fun start => reads_evaluation start loc (t :: more)
      (show value.tokens.length ≤ depth by omega)
    simp only [hvalue, cons_append] at hread ⊢
    exact reads_stmt_of_startsExpr hfirst hread
  | retNothing loc =>
    refine .here fun start => .peek?_cons (.skip (.choose ?_))
    exact .spanFrom fun loc => .pure rfl
  | ret value loc =>
    obtain ⟨first, rest, hvalue, hfirst⟩ := value.exists_tokens_eq_cons
    have hsemicolon : first ≠ .symbol .semicolon := by
      rintro rfl
      simp [TokenKind.startsExpr, TokenKind.startsAtom] at hfirst
    simp only [length_cons, length_append] at hdepth
    refine .here fun start => .peek?_cons (.skip (.choose_of_ne ?_ ?_))
    · simpa [hvalue] using hsemicolon
    · refine .bind (reads_expr (by omega) rfl _) fun value' hvalue' => ?_
      exact .expect (.spanFrom fun loc => .pure (by simp [Stmt.bare, hvalue']))
  | @branch thenPart elsePart us vs test loc hthen helse =>
    simp only [length_cons, length_append] at hn hdepth
    obtain ⟨rest, hus⟩ := hthen.exists_eq_cons
    have htest : Reads (expr depth) test.tokens (us ++ vs ++ t :: more)
        fun test' => test'.bare = test.bare := by
      rw [hus]
      exact reads_expr (by omega) rfl _
    refine .here fun start => .peek?_cons (.skip ?_)
    refine .bind htest fun test' htest' => ?_
    refine .bind (reads_block hstmts hthen (by omega) (by omega) _) fun b hb => ?_
    refine .bind_last (reads_elsePart hstmts helse (by omega) (by omega) ht more) ?_
    intro e he
    exact .spanFrom fun loc => .pure (by simp [Stmt.bare, htest', hb, he])
  | @loop body us test loc hbody =>
    simp only [length_cons, length_append] at hn hdepth
    obtain ⟨rest, hus⟩ := hbody.exists_eq_cons
    have htest : Reads (expr depth) test.tokens (us ++ t :: more)
        fun test' => test'.bare = test.bare := by
      rw [hus]
      exact reads_expr (by omega) rfl _
    refine .here fun start => .peek?_cons (.skip ?_)
    refine .bind htest fun test' htest' => ?_
    refine .bind_last (reads_block hstmts hbody (by omega) (by omega) _) fun b hb => ?_
    exact .spanFrom fun loc => .pure (by simp [Stmt.bare, htest', hb])
  | select scrutinee loc harms =>
    obtain ⟨parts, rfl, rfl, hparts⟩ := harms.exists_parts
    simp only [length_cons, length_append] at hn hdepth
    have hreads : ∀ part ∈ parts, ∀ t more, t ≠ .symbol .comma →
        Reads (armOf (stmt depth n)) part.2 (t :: more) fun a => a.bare = part.1.bare := by
      intro part hpart t more ht
      have hlength := length_le_length_flatMap_of_mem Prod.snd hpart
      exact reads_arm hstmts (hparts part hpart) (by omega) (by omega) ht more
    have hstart : ∀ part ∈ parts, ∃ t more, part.2 = t :: more ∧ t ≠ .symbol .comma ∧
        t ≠ .symbol .closeBrace := fun part hpart => (hparts part hpart).exists_eq_cons
    refine .here fun start => .peek?_cons (.skip ?_)
    refine .bind (reads_expr (by omega) rfl _) fun e he => .expect ?_
    refine .bind_last (.manyUntil hreads hstart (by simp)) fun as has => ?_
    refine .spanFrom fun loc => .pure ?_
    simp only [Stmt.bare, he, Arm.bareAll_eq_map, map_eq_map_of_forall₂ has, map_map]
    rfl

lemma reads_stmt (depth n : Nat) : ReadsStmts depth n := by
  induction n with
  | zero =>
    intro s ts t more hs hn hdepth ht
    obtain ⟨first, rest, rfl, -⟩ := hs.exists_eq_cons
    simp at hn
  | succ n ih => exact reads_stmt_succ ih

end

end Ownership.Sketch
