import Ownership.Proofs.Sketch.Declarations
import Ownership.Proofs.Sketch.Locality

/-!
# Declarations are read again

Each rule of the grammar reads again what it once read. The reader of a declaration ends with a
token of its own, so a declaration is read again wherever its tokens stand, whatever comes after
them.
-/

namespace Ownership.Sketch

open Reader

variable {t look : Bool} {b b' n n' depth : Nat} {start start' : Spot}

/-! ### Types -/

lemma echoes_typeExpr : Echoes t true b b' (typeExpr n) (typeExpr n) TypeExpr.bare := by
  induction n generalizing t b b' with
  | zero => exact .fail
  | succ n ih =>
    refine .here fun _ _ => .peek? fun k => ?_
    split
    · exact .skip (.spanFrom fun _ _ => .pure rfl)
    · refine .skip (.flag fun mutable => ih.andThen fun inner inner' h => ?_)
      exact .pure (by simp [TypeExpr.bare, h])
    · refine .skip (.expect (ih.before fun inner inner' h => .expect ?_))
      exact .pure (by simp [TypeExpr.bare, h])
    · exact .fail

/-! ### Expressions -/

section Expressions

variable {operand : Reader Expr} {left left' : Expr}
  (hoperand : ∀ {t b b'}, Echoes t true b b' operand operand Expr.bare)

include hoperand in
lemma echoes_chainUpTo (op? : TokenKind → Option BinaryOp) (hn' : b' ≤ n')
    (hleft : left'.bare = left.bare) :
    Echoes false true n b' (chainUpTo op? operand start n left)
      (chainUpTo op? operand start' n' left') Expr.bare := by
  induction n generalizing n' b' left left' with
  | zero =>
    refine .pure_of_end ?_
    cases n' with
    | zero => exact .pure hleft
    | succ m => exact .peek? (.pure hleft)
  | succ n ih =>
    refine .of_succ (f := fun m => chainUpTo op? operand start' m left') (fun m hm => ?_)
      (.inr fun _ _ => rfl) hn'
    refine .peek? fun k => ?_
    cases k.bind op? with
    | none => exact .pure hleft
    | some op =>
      refine .skip (hoperand.before fun right right' hright => .spanFrom fun loc loc' => ?_)
      exact ih (Nat.sub_le_of_le_add hm) (by simp [Expr.bare, hleft, hright])

include hoperand in
lemma echoes_chain (op? : TokenKind → Option BinaryOp) :
    Echoes t true b b' (chain op? operand) (chain op? operand) Expr.bare :=
  .here fun _ _ => hoperand.andThen fun _ _ hleft =>
    .remaining fun _ n' _ _ => echoes_chainUpTo hoperand op? (Nat.le_refl n') hleft

include hoperand in
lemma echoes_compared : Echoes t true b b' (compared operand) (compared operand) Expr.bare := by
  refine .here fun _ _ => hoperand.andThen fun left left' hleft => .peek? fun k => ?_
  cases k.bind comparison? with
  | none => exact .pure hleft
  | some op =>
    refine .skip (hoperand.andThen fun right right' hright => .spanFrom fun _ _ => ?_)
    exact .pure (by simp [Expr.bare, hleft, hright])

include hoperand in
lemma echoes_exprOver : Echoes t true b b' (exprOver operand) (exprOver operand) Expr.bare :=
  echoes_chain (echoes_chain (echoes_compared (echoes_chain hoperand arithmetic?)) andOp?) orOp?

variable {expr : Reader Expr} (hexpr : ∀ {t b b'}, Echoes t true b b' expr expr Expr.bare)

include hexpr in
lemma echoes_named (word : String) :
    Echoes false true b b' (named expr start word) (named expr start' word) Expr.bare := by
  refine .accept ?_ (.accept (.name fun arm => .accept ?_ ?_) ?_)
  · refine (Echoes.listed hexpr).andThen fun args args' h => .spanFrom fun _ _ => ?_
    exact .pure (by simp [Expr.bare, Expr.bareAll_eq_map, h])
  · refine (Echoes.listed hexpr).andThen fun args args' h => .spanFrom fun _ _ => ?_
    exact .pure (by simp [Expr.bare, Expr.bareAll_eq_map, h])
  · exact .spanFrom fun _ _ => .pure rfl
  · exact .spanFrom fun _ _ => .pure rfl

include hexpr in
lemma echoes_atom : Echoes t true b b' (atom expr) (atom expr) Expr.bare := by
  refine .here fun _ _ => .peek? fun k => ?_
  split
  · exact .skip (echoes_named hexpr _)
  · exact .skip (.spanFrom fun _ _ => .pure rfl)
  · exact .skip (.spanFrom fun _ _ => .pure rfl)
  · exact .skip (.spanFrom fun _ _ => .pure rfl)
  · exact .skip (.spanFrom fun _ _ => .pure rfl)
  · exact .skip (hexpr.before fun e e' h => .expect (.pure h))
  · exact .fail

lemma echoes_fieldsUpTo (hn' : b' ≤ n') (hleft : left'.bare = left.bare) :
    Echoes false true n b' (fieldsUpTo start n left) (fieldsUpTo start' n' left') Expr.bare := by
  induction n generalizing n' b' left left' with
  | zero =>
    refine .pure_of_end ?_
    cases n' with
    | zero => exact .pure hleft
    | succ m => exact .choose_of_ne (by simp) (.pure hleft)
  | succ n ih =>
    refine .of_succ (f := fun m => fieldsUpTo start' m left') (fun m hm => ?_)
      (.inr fun _ _ => rfl) hn'
    refine .accept (.name fun field => .spanFrom fun loc loc' => ?_) (.pure hleft)
    exact (ih (show b' - 1 - 1 ≤ m by omega) (by simp [Expr.bare, hleft])).mono
      nofun (Nat.sub_le n 1)
      (Nat.le_refl _)

end Expressions

lemma echoes_operand : Echoes t true b b' (operand n) (operand n) Expr.bare := by
  induction n generalizing t b b' with
  | zero => exact .fail
  | succ n ih =>
    refine .here fun _ _ => .peek? fun k => ?_
    split
    · refine .skip (ih.andThen fun e e' h => .spanFrom fun _ _ => ?_)
      exact .pure (by simp [Expr.bare, h])
    · refine .skip (.flag fun mutable => ih.andThen fun e e' h => .spanFrom fun _ _ => ?_)
      exact .pure (by simp [Expr.bare, h])
    · exact (echoes_atom (echoes_exprOver ih)).andThen fun e e' h =>
        .remaining fun _ n' _ _ => echoes_fieldsUpTo (Nat.le_refl n') h

lemma echoes_expr : Echoes t true b b' (expr n) (expr n) Expr.bare := echoes_exprOver echoes_operand

/-! ### Statements -/

section Statements

variable {stmt : Reader Stmt} (hstmt : ∀ {t b b'}, Echoes t true b b' stmt stmt Stmt.bare)

include hstmt in
lemma echoes_blockOf : Echoes t look b b' (blockOf stmt) (blockOf stmt) Block.bare := by
  refine .here fun _ _ => .expect ((Echoes.manyUntil hstmt).andThen fun ss ss' h => ?_)
  exact .spanFrom fun _ _ => .pure (by simp [Block.bare, Stmt.bareAll_eq_map, h])

lemma echoes_binder : Echoes t true b b' binder binder id := .accept (.pure rfl) .name_self

lemma echoes_pattern : Echoes t true b b' pattern pattern id := by
  refine .accept (.pure rfl) (.flag fun byRef => .name fun variant => .accept ?_ (.pure rfl))
  refine (Echoes.separated echoes_binder).before fun bs bs' h => .expect ?_
  obtain rfl : bs' = bs := by simpa using h
  exact .pure rfl

include hstmt in
lemma echoes_armOf : Echoes t true b b' (armOf stmt) (armOf stmt) Arm.bare := by
  refine .here fun _ _ => echoes_pattern.before fun p p' hp => .expect ?_
  obtain rfl := hp
  refine (echoes_blockOf hstmt).andThen fun body body' h => .flag fun _ => .spanFrom fun _ _ => ?_
  exact .pure (by simp [Arm.bare, h])

lemma echoes_declaration :
    Echoes t look b b' (declaration depth start) (declaration depth start') Stmt.bare := by
  refine .flag fun mutable => .name fun word => ?_
  refine .optional echoes_typeExpr fun type type' htype => ?_
  refine .optional echoes_expr fun value value' hvalue => ?_
  exact .expect (.spanFrom fun _ _ => .pure (by simp [Stmt.bare, htype, hvalue]))

lemma echoes_returned :
    Echoes t look b b' (returned depth start) (returned depth start') Stmt.bare := by
  refine .accept (.spanFrom fun _ _ => .pure rfl) (echoes_expr.before fun value value' h => ?_)
  exact .expect (.spanFrom fun _ _ => .pure (by simp [Stmt.bare, h]))

include hstmt in
lemma echoes_elsePart : Echoes false true b b' (elsePart stmt) (elsePart stmt) Block.bareOpt := by
  refine .accept (.peek? fun k => ?_) (.pure rfl)
  split
  · refine .here fun _ _ => hstmt.andThen fun nested nested' h => .spanFrom fun _ _ => ?_
    exact .pure (by simp [Block.bareOpt, Block.bare, Stmt.bareAll, h])
  · exact (echoes_blockOf hstmt).map fun body body' h => congrArg some h

lemma echoes_evaluation :
    Echoes t look b b' (evaluation depth start) (evaluation depth start') Stmt.bare := by
  refine echoes_expr.before fun e e' h => .accept (echoes_expr.before fun value value' h' => ?_) ?_
  · exact .expect (.spanFrom fun _ _ => .pure (by simp [Stmt.bare, h, h']))
  · exact .expect (.spanFrom fun _ _ => .pure (by simp [Stmt.bare, h]))

end Statements

lemma echoes_stmt : Echoes t true b b' (stmt depth n) (stmt depth n) Stmt.bare := by
  induction n generalizing t b b' with
  | zero => exact .fail
  | succ n ih =>
    refine .here fun _ _ => .peek? fun k => ?_
    split
    · exact .skip echoes_declaration
    · exact .skip echoes_returned
    · refine .skip (echoes_expr.andThen fun test test' htest => ?_)
      refine (echoes_blockOf ih).andThen fun body body' hbody => ?_
      refine (echoes_elsePart ih).andThen fun other other' hother => .spanFrom fun _ _ => ?_
      exact .pure (by simp [Stmt.bare, htest, hbody, hother])
    · refine .skip (echoes_expr.andThen fun test test' htest => ?_)
      refine (echoes_blockOf ih).andThen fun body body' h => .spanFrom fun _ _ => ?_
      exact .pure (by simp [Stmt.bare, htest, h])
    · refine .skip (echoes_expr.andThen fun e e' he => .expect ?_)
      refine (Echoes.manyUntil (echoes_armOf ih)).andThen fun as as' h => .spanFrom fun _ _ => ?_
      exact .pure (by simp [Stmt.bare, he, Arm.bareAll_eq_map, h])
    · exact (echoes_blockOf ih).map fun body body' h => by simp [Stmt.bare, h]
    · exact echoes_evaluation

/-! ### Declarations -/

lemma echoes_structField :
    Echoes t true b b' (structField depth) (structField depth) StructField.bare :=
  .name fun word => .expect (echoes_typeExpr.andThen fun type type' h =>
    .pure (by simp [StructField.bare, h]))

lemma echoes_armField : Echoes t true b b' (armField depth) (armField depth) ArmField.bare := by
  have htype : ∀ {t b b'} name, Echoes t true b b'
      (typeExpr depth >>= fun type => pure { name, type : ArmField })
      (typeExpr depth >>= fun type => pure { name, type : ArmField }) ArmField.bare :=
    fun name => echoes_typeExpr.andThen fun type type' h => .pure (by simp [ArmField.bare, h])
  refine .here fun _ _ => .peek? fun k => ?_
  split
  · exact .skip (.spanFrom fun loc loc' => .accept (htype _) (.pure rfl))
  · exact htype none

lemma echoes_armDecl : Echoes t true b b' (armDecl depth) (armDecl depth) ArmDecl.bare := by
  refine .name fun word => .accept ((Echoes.separated echoes_armField).before fun fs fs' h => ?_)
    (.pure rfl)
  exact .expect (.pure (by simp [ArmDecl.bare, h]))

lemma echoes_passMode : Echoes t true b b' passMode passMode id :=
  .accept (.pure rfl) (.expect (.accept (.pure rfl) (.pure rfl)))

lemma echoes_paramDecl : Echoes t true b b' (paramDecl depth) (paramDecl depth) ParamDecl.bare := by
  refine .here fun _ _ => .flag fun mutable => .name fun word => .expect ?_
  refine echoes_typeExpr.andThen fun type type' h => .spanFrom fun _ _ => ?_
  exact .pure (by simp [ParamDecl.bare, h])

lemma echoes_returnType :
    Echoes false true b b' (returnType depth) (returnType depth) (Option.map TypeExpr.bare) :=
  .accept (echoes_typeExpr.map fun _ _ h => congrArg some h) (.pure rfl)

lemma echoes_item : Echoes t look b b' (item depth) (item depth) Item.bare := by
  refine .here fun _ _ => .peek? fun k => ?_
  split
  · refine .skip (.name fun word => .expect ?_)
    refine (Echoes.separated echoes_armDecl).before fun as as' h => ?_
    exact .expect (.spanFrom fun _ _ => .pure (by simp [Item.bare, h]))
  · refine .skip (.name fun word => .expect ?_)
    refine (Echoes.listedLoosely echoes_structField).andThen fun fs fs' h => ?_
    exact .spanFrom fun _ _ => .pure (by simp [Item.bare, h])
  · refine .skip (.expect (.name fun word => .expect ?_))
    refine (Echoes.listed echoes_passMode).andThen fun modes modes' h => ?_
    obtain rfl : modes' = modes := by simpa using h
    refine echoes_returnType.before fun type type' h => ?_
    exact .expect (.pure (by simp [Item.bare, h]))
  · refine .skip (.name fun word => .expect ?_)
    refine (Echoes.listed echoes_paramDecl).andThen fun ps ps' hps => ?_
    refine echoes_returnType.before fun type type' htype => ?_
    refine (echoes_blockOf echoes_stmt).andThen fun body body' h => .spanFrom fun _ _ => ?_
    exact .pure (by simp [Item.bare, FunctionDecl.bare, hps, htype, h])
  · exact .fail

/-! ### Texts in pieces -/

/-- Tokens that stand at no place in particular. -/
def Cursor.ofKinds (ws : List TokenKind) : Cursor where
  rest := ws.map fun kind => { kind, start := {}, stop := {} }

/-- The declaration whose tokens these are, without its spans. -/
def declared? (depth : Nat) (ws : List TokenKind) : Option Item :=
  match item depth (.ofKinds ws) with
  | .ok (i, c) => if c.rest.isEmpty then some i.bare else none
  | .error _ => none

/-- A text whose tokens, one after the other, are those of some declarations. -/
@[mk_iff]
structure Cuts (text : String) (pieces : List (List TokenKind)) : Prop where
  stray : (scan text.toList).stray = none
  kinds : (scan text.toList).tokens.map Token.kind = pieces.flatten
  declarations : ∀ ws ∈ pieces, (declared? (scan text.toList).tokens.length ws).isSome = true

instance (text : String) (pieces : List (List TokenKind)) : Decidable (Cuts text pieces) :=
  decidable_of_iff _ (cuts_iff text pieces).symm

variable {ws : List TokenKind} {pieces : List (List TokenKind)} {i : Item} {is : List Item}
  {text : String} {c d : Cursor}

lemma declared?_eq_some_iff : declared? depth ws = some i ↔
    ∃ j c, item depth (.ofKinds ws) = .ok (j, c) ∧ c.rest = [] ∧ j.bare = i := by
  unfold declared?
  cases item depth (.ofKinds ws) with
  | error c => simp
  | ok k =>
    constructor
    · intro h
      obtain ⟨hrest, hi⟩ := Option.ite_none_right_eq_some.1 h
      exact ⟨k.1, k.2, rfl, List.isEmpty_iff.1 hrest, Option.some.inj hi⟩
    · rintro ⟨j, c, hk, hc, rfl⟩
      cases hk
      exact if_pos (List.isEmpty_iff.2 hc)

lemma exists_taken (h : item depth c = .ok (i, d)) :
    ∃ ws, c.kinds = ws ++ d.kinds ∧
      ∀ follow, Reads (item depth) ws follow fun j => j.bare = i.bare := by
  have hitem : ∀ b', Echoes false false c.rest.length b' (item depth) (item depth) Item.bare :=
    fun _ => echoes_item
  have hagain := fun b' => hitem b' c i d (Nat.le_refl _) h
  obtain ⟨ws, hws, -⟩ := hagain 0
  refine ⟨ws, hws, fun follow => ?_⟩
  obtain ⟨ws', hws', -, hreads⟩ := hagain (ws ++ follow).length
  obtain rfl : ws' = ws := List.append_cancel_right (hws'.symm.trans hws)
  exact hreads follow nofun (Nat.le_refl _)

lemma kinds_ofKinds (ws : List TokenKind) : (Cursor.ofKinds ws).kinds = ws := by
  simp [Cursor.kinds, Cursor.ofKinds, Function.comp_def]

lemma reads_of_declared? (h : declared? depth ws = some i) (follow : List TokenKind) :
    Reads (item depth) ws follow fun j => declared? depth ws = some j.bare := by
  obtain ⟨j, c, hj, hc, rfl⟩ := declared?_eq_some_iff.1 h
  obtain ⟨ts, hts, hreads⟩ := exists_taken hj
  obtain rfl : ts = ws := by
    rw [kinds_ofKinds, Cursor.kinds, hc] at hts
    simpa using hts.symm
  exact (hreads follow).mono fun i' hi' => by rw [h, hi']

lemma ne_nil_of_declared? (h : declared? depth ws = some i) : ws ≠ [] := by
  rintro rfl
  cases h

lemma items_of_cuts (h : Cuts text pieces) (file : Option String) :
    ∃ is, items file text.toList = .ok is ∧
      List.Forall₂ (fun ws i => declared? (scan text.toList).tokens.length ws = some i.bare)
        pieces is := by
  have hread := fun ws hws => Option.isSome_iff_exists.1 (h.declarations ws hws)
  have hdepth : (scan text.toList).tokens.length = pieces.flatten.length := by
    rw [← h.kinds, List.length_map]
  rw [hdepth] at hread ⊢
  refine exists_items h.kinds h.stray ?_ file
  nth_rewrite 2 [← List.flatMap_id]
  refine .all (fun ws hws more _ => ?_) fun ws hws => ?_
  · obtain ⟨i, hi⟩ := hread ws hws
    exact reads_of_declared? hi _
  · obtain ⟨i, hi⟩ := hread ws hws
    exact ne_nil_of_declared? hi

lemma exists_piece (h : item depth c = .ok (i, d)) :
    ∃ ws, c.kinds = ws ++ d.kinds ∧ declared? depth ws = some i.bare := by
  obtain ⟨ws, hws, hreads⟩ := exists_taken h
  obtain ⟨j, last, hj, hbare⟩ :=
    hreads [] none (Cursor.ofKinds ws).rest [] none (kinds_ofKinds ws) rfl
  rw [List.append_nil] at hj
  exact ⟨ws, hws, declared?_eq_some_iff.2 ⟨j, _, hj, rfl, hbare⟩⟩

/-- What is read as declarations falls into their pieces. -/
lemma exists_pieces (hn : c.rest.length ≤ n) (h : allUpTo (item depth) n c = .ok (is, d)) :
    ∃ pieces : List (List TokenKind), c.kinds = pieces.flatten ∧
      ∀ ws ∈ pieces, (declared? depth ws).isSome = true := by
  induction n generalizing c d is with
  | zero =>
    cases h
    exact ⟨[], by simpa [Cursor.kinds] using hn, nofun⟩
  | succ n ih =>
    obtain ⟨k, c', hk, h⟩ := Echoes.exists_of_bind h
    cases hk
    cases hrest : c.rest with
    | nil => exact ⟨[], by simp [Cursor.kinds, hrest], nofun⟩
    | cons t rest =>
      rw [hrest] at h
      obtain ⟨i, c₁, hi, h⟩ := Echoes.exists_of_bind h
      obtain ⟨js, c₂, hjs, -⟩ := Echoes.exists_of_bind h
      obtain ⟨ws, hws, hread⟩ := exists_piece hi
      have hlength : c₁.rest.length ≤ n := by
        have hkinds := congrArg List.length hws
        have hpos := List.length_pos_iff.2 (ne_nil_of_declared? hread)
        rw [List.length_append, c.length_kinds, c₁.length_kinds] at hkinds
        omega
      obtain ⟨pieces, hpieces, hreads⟩ := ih hlength hjs
      refine ⟨ws :: pieces, by rw [hws, hpieces, List.flatten_cons], ?_⟩
      exact List.forall_mem_cons.2 ⟨Option.isSome_iff_exists.2 ⟨_, hread⟩, hreads⟩

lemma exists_cuts {file : Option String} (h : items file text.toList = .ok is) :
    ∃ pieces, Cuts text pieces := by
  unfold items at h
  dsimp only at h
  split at h
  · cases h
  · next is' d hrun =>
    split at h
    · cases h
    · next hstray =>
      obtain ⟨n, c, hn, hrun⟩ := Echoes.exists_of_bind hrun
      cases hn
      obtain ⟨pieces, hpieces, hreads⟩ := exists_pieces (Nat.le_refl _) hrun
      exact ⟨pieces, hstray, hpieces, hreads⟩

end Ownership.Sketch
