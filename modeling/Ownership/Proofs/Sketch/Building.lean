import Ownership.Proofs.Sketch.Growth
import Ownership.Proofs.Sketch.Spans

/-!
# Taking a sketch back

A function that was put into the words of a sketch is taken as the same function. The type table
grows meanwhile, so what a step gives is stated for every later table as well (`Build.Gives`). Since
spans do not matter, all is stated for sketches without them.
-/

namespace Ownership.Sketch

variable {α β γ : Type} {items : List Item} {t : TypeTable} {e : Ownership.Expr}

/-! ### Steps -/

/-- The step succeeds, leaves a table that serves, and gives something with `P` in every later
table. -/
def Build.Gives (items : List Item) (b : Build α) (t : TypeTable) (P : TypeTable → α → Prop) :
    Prop :=
  ∃ a t', b t = .ok (a, t') ∧ t.Grows t' ∧ t'.Serves items ∧ ∀ T, t'.Grows T → P T a

namespace Build.Gives

variable {P : TypeTable → α → Prop} {Q : TypeTable → β → Prop} {b : Build α} {f : α → Build β}

lemma pure {a : α} (ht : t.Serves items) (h : ∀ T, t.Grows T → P T a) : Gives items (pure a) t P :=
  ⟨a, t, rfl, .refl t, ht, h⟩

lemma bind (h : Gives items b t P)
    (hf : ∀ a t', t.Grows t' → t'.Serves items → (∀ T, t'.Grows T → P T a) →
      Gives items (f a) t' Q) :
    Gives items (b >>= f) t Q := by
  obtain ⟨a, t', hb, hgrows, hserves, hP⟩ := h
  obtain ⟨c, t'', hc, hgrows', hserves', hQ⟩ := hf a t' hgrows hserves hP
  refine ⟨c, t'', ?_, hgrows.trans hgrows', hserves', hQ⟩
  simp [Bind.bind, StateT.bind, Except.bind, hb, hc]

lemma mono {P' : TypeTable → α → Prop} (h : Gives items b t P) (hP : ∀ T a, P T a → P' T a) :
    Gives items b t P' := by
  obtain ⟨a, t', hb, hgrows, hserves, h⟩ := h
  exact ⟨a, t', hb, hgrows, hserves, fun T hT => hP T a (h T hT)⟩

lemma map {g : α → β} (h : Gives items b t fun T a => Q T (g a)) : Gives items (g <$> b) t Q := by
  rw [map_eq_pure_bind]
  exact h.bind fun _ _ _ ht' hQ => .pure ht' hQ

/-- What holds of every step holds of the steps of a list, one after the other. -/
lemma mapM {χ : α → β} {f : β → Build γ} {Q : TypeTable → α → γ → Prop} {xs : List α}
    (hf : ∀ x ∈ xs, ∀ t, t.Serves items → Gives items (f (χ x)) t fun T => Q T x)
    (ht : t.Serves items) : Gives items ((xs.map χ).mapM f) t fun T => List.Forall₂ (Q T) xs := by
  induction xs generalizing t with
  | nil => exact .pure ht fun T hT => .nil
  | cons x xs ih =>
    rw [List.map_cons, List.mapM_cons]
    refine (hf x (by simp) t ht).bind fun z t₁ _ ht₁ hz => ?_
    refine (ih (fun x' hx' => hf x' (by simp [hx'])) ht₁).bind fun zs t₂ hgrows ht₂ hzs => ?_
    exact .pure ht₂ fun T hT => .cons (hz T (hgrows.trans hT)) (hzs T hT)

end Build.Gives

open Build

/-! ### Types -/

namespace TypeExpr

lemma build_wrap (e : TypeExpr) (w : Wrapper) :
    (e.wrap w).build = e.build >>= fun id => Build.table .unknown (·.wrap id w) := by
  cases w <;> rfl

lemma expressible_wrap {e : TypeExpr} {w : Wrapper} :
    (e.wrap w).Expressible items ↔ e.Expressible items := by
  cases w <;> rfl

lemma idIn_bare (e : TypeExpr) (t : TypeTable) : e.bare.idIn t = e.idIn t := by
  induction e using wrap_induction with
  | named name loc => rfl
  | wrap e w ih => rw [bare_wrap, TypeTable.idIn_wrap, TypeTable.idIn_wrap, ih]

lemma idIn_eq_of_bare_eq {e e' : TypeExpr} (h : e.bare = e'.bare) (t : TypeTable) :
    e.idIn t = e'.idIn t := by
  rw [← e.idIn_bare, h, e'.idIn_bare]

end TypeExpr

lemma gives_type {e : TypeExpr} (he : e.Expressible items) (ht : t.Serves items) :
    Gives items e.bare.build t fun T id => e.idIn T = some id := by
  induction e using TypeExpr.wrap_induction generalizing t with
  | named name loc =>
    obtain ⟨id, hid⟩ := Option.isSome_iff_exists.1 ((ht.known name).2 he)
    refine ⟨id, t, ?_, .refl t, ht, fun T hT => hT.names hid⟩
    simp [TypeExpr.bare, TypeExpr.build, Build.ask, hid, Except.map]
  | wrap e w ih =>
    rw [TypeExpr.bare_wrap, TypeExpr.build_wrap]
    refine (ih (TypeExpr.expressible_wrap.1 he) ht).bind fun id t' _ ht' hid => ?_
    obtain ⟨d, hd⟩ := ht'.exists_get? (hid t' (.refl t'))
    obtain ⟨id', t'', hstep, hgains, hid'⟩ := ht'.wrap hd w
    refine ⟨id', t'',
      by simp [Build.table, hstep, Except.mapError], hgains.grows, hgains.serves, ?_⟩
    intro T hT
    exact TypeTable.idIn_wrap_eq_some_iff.2 ⟨id, hid T (hgains.grows.trans hT), hT.wrapped hid'⟩

/-! ### Expressions -/

lemma value_toDigits (n : Nat) : Numeral.value 10 (Nat.toDigits 10 n) = n := by
  have hdigit : ∀ m : Nat, ∀ c ∈ Nat.toDigits 10 n,
      10 * m + (Numeral.digit? c).getD 0 = 10 * m + (c.toNat - '0'.toNat) := by
    intro m c hc
    have hc' : c.isDigit := Nat.isDigit_of_mem_toDigits (by decide) (by decide) hc
    simp [Numeral.digit?, hc']
  rw [Numeral.value, List.foldl_ext _ _ 0 hdigit, ← Nat.ofDigitChars_eq_foldl]
  exact Nat.ofDigitChars_toDigits (by decide) (by decide)

lemma isTarget_of_bare_eq {e' : Ownership.Expr} (h : e.IsTarget) (he : e.bare = e'.bare) :
    isTarget e' := by
  cases e <;> cases e' <;> simp_all [Ownership.Expr.IsTarget, Ownership.Expr.bare, isTarget]

lemma isStructName_iff {name : String} (ht : t.Serves items) :
    isStructName t name = true ↔ name ∈ structNames items := by
  unfold isStructName
  cases hid : t.lookup name with
  | none =>
    have hunknown : name ∉ typeNames items := by simp [← ht.known, hid]
    simpa using fun hmem => hunknown (by simp [typeNames, hmem])
  | some id =>
    obtain ⟨d, hd, hnamed⟩ := ht.named hid
    simpa [hd] using hnamed.isStruct_iff

mutual

/-- An expression is resolved as it has been written down. -/
lemma resolve_of_written (ht : t.Serves items) (e : Ownership.Expr) (he : e.Expressible items) :
    ∃ r, resolve t e.written.bare = .ok r ∧ e.bare = r.bare := by
  match e with
  | .literal (.int n) loc =>
    obtain ⟨hn, hlength⟩ := he
    refine ⟨.literal (.int n) .unknown, ?_, rfl⟩
    rw [Ownership.Expr.written, Expr.bare, resolve, Numeral.decimal, if_pos hlength, value_toDigits]
    simp [Except.mapError, Int.toNat_of_nonneg hn, bind, Except.bind, pure, Except.pure]
  | .literal (.bool b) loc => exact ⟨.literal (.bool b) .unknown, rfl, rfl⟩
  | .literal (.text value) loc => exact ⟨.literal (.text value) .unknown, rfl, rfl⟩
  | .var name loc => exact ⟨.var name .unknown, rfl, rfl⟩
  | .field e name loc =>
    obtain ⟨r, hr, hbare⟩ := resolve_of_written ht e he.1
    refine ⟨.field r name .unknown, ?_, by simp [Ownership.Expr.bare, hbare]⟩
    simp [Ownership.Expr.written, Expr.bare, resolve, hr]
  | .deref e loc =>
    obtain ⟨r, hr, hbare⟩ := resolve_of_written ht e he
    refine ⟨.deref r .unknown, ?_, by simp [Ownership.Expr.bare, hbare]⟩
    simp [Ownership.Expr.written, Expr.bare, resolve, hr]
  | .borrow e mutable loc =>
    obtain ⟨r, hr, hbare⟩ := resolve_of_written ht e he
    refine ⟨.borrow r mutable .unknown, ?_, by simp [Ownership.Expr.bare, hbare]⟩
    simp [Ownership.Expr.written, Expr.bare, resolve, hr]
  | .call callee args loc =>
    obtain ⟨-, hcallee, hargs⟩ := he
    obtain ⟨rs, hrs, hbare⟩ := resolveAll_of_written ht args hargs
    have hfalse : isStructName t callee = false := by
      rwa [← Bool.not_eq_true, isStructName_iff ht]
    refine ⟨.call callee rs .unknown, ?_, by simp [Ownership.Expr.bare, hbare]⟩
    simp [Ownership.Expr.written, Expr.bare, resolve, hrs, hfalse]
  | .binary op l r loc =>
    obtain ⟨x, hx, hleft⟩ := resolve_of_written ht l he.1
    obtain ⟨y, hy, hright⟩ := resolve_of_written ht r he.2
    refine ⟨.binary op x y .unknown, ?_, by simp [Ownership.Expr.bare, hleft, hright]⟩
    simp only [Ownership.Expr.written, Expr.bare, resolve, hx, hy]
    rfl
  | .construct typeName none args loc =>
    obtain ⟨rs, hrs, hbare⟩ := resolveAll_of_written ht args he.2
    have htrue : isStructName t typeName = true := (isStructName_iff ht).2 he.1
    refine ⟨.construct typeName none rs .unknown, ?_, by simp [Ownership.Expr.bare, hbare]⟩
    simp [Ownership.Expr.written, Expr.bare, resolve, hrs, htrue]
  | .construct typeName (some arm) args loc =>
    obtain ⟨hname, -, hargs⟩ := he
    obtain ⟨id, hid⟩ := Option.isSome_iff_exists.1 ((ht.known typeName).2 hname)
    obtain ⟨rs, hrs, hbare⟩ := resolveAll_of_written ht args hargs
    refine ⟨.construct typeName (some arm) rs .unknown, ?_, by simp [Ownership.Expr.bare, hbare]⟩
    simp [Ownership.Expr.written, Expr.bare, resolve, hid, hrs]
  | .absent | .literal .other _ | .foreign _ => exact he.elim

lemma resolveAll_of_written (ht : t.Serves items) (es : List Ownership.Expr)
    (hes : Ownership.Expr.ExpressibleAll items es) :
    ∃ rs, resolveAll t (Expr.bareAll (Ownership.Expr.writtenAll es)) = .ok rs ∧
      Ownership.Expr.bareAll es = Ownership.Expr.bareAll rs := by
  match es with
  | [] => exact ⟨[], rfl, rfl⟩
  | e :: es =>
    obtain ⟨r, hr, hbare⟩ := resolve_of_written ht e hes.1
    obtain ⟨rs, hrs, hbares⟩ := resolveAll_of_written ht es hes.2
    refine ⟨r :: rs, ?_, by simp [Ownership.Expr.bareAll, hbare, hbares]⟩
    simp only [Ownership.Expr.writtenAll, Expr.bareAll, resolveAll, hr, hrs]
    rfl

end

lemma gives_expr (he : e.Expressible items) (ht : t.Serves items) :
    Gives items (buildExpr e.written.bare) t fun _ r => e.bare = r.bare := by
  obtain ⟨r, hr, hbare⟩ := resolve_of_written ht e he
  exact ⟨r, t, by simp [buildExpr, Build.ask, hr, Except.map], .refl t, ht, fun _ _ => hbare⟩

lemma gives_exprOpt (he : e.isPresent → e.Expressible items) (ht : t.Serves items) :
    Gives items (buildExprOpt (e.writtenOpt.map Expr.bare)) t fun _ r => e.bare = r.bare := by
  unfold Ownership.Expr.writtenOpt
  by_cases hpresent : e.isPresent
  · rw [if_pos hpresent]
    exact gives_expr (he hpresent) ht
  · rw [if_neg hpresent]
    refine .pure ht fun T hT => ?_
    cases e <;> simp_all [Ownership.Expr.isPresent]

/-! ### Statements -/

/-- The number of a type in a table, for the type that it stood for before. -/
def Renumbers (write : TypeId → TypeExpr) (t : TypeTable) (i j : TypeId) : Prop :=
  (write i).idIn t = some j

section

variable {write : TypeId → TypeExpr}

lemma gives_typeOpt {type : Option TypeId} (htype : ∀ id ∈ type, (write id).Expressible items)
    (ht : t.Serves items) :
    Gives items (TypeExpr.buildOpt ((type.map write).map TypeExpr.bare)) t
      fun T => Option.Rel (Renumbers write T) type := by
  cases type with
  | none => exact .pure ht fun T hT => .none
  | some id => exact .map ((gives_type (htype id rfl) ht).mono fun T id' hid' => .some hid')

mutual

/-- A statement is built as it has been written down. -/
lemma gives_stmt (s : Ownership.Stmt) (t : TypeTable) (hs : s.Expressible items write)
    (ht : t.Serves items) :
    Gives items (s.written write).bare.build t fun T => Stmt.Same (Renumbers write T) s := by
  match s with
  | .block b => exact .map ((gives_block b t hs ht).mono fun T b' hb => .block hb)
  | .declare name type value mutable loc =>
    obtain ⟨-, htype, hvalue⟩ := hs
    refine (gives_typeOpt htype ht).bind fun type' t₁ _ ht₁ htype' => ?_
    refine (gives_exprOpt hvalue ht₁).bind fun value' t₂ hgrows ht₂ hvalue' => ?_
    exact .pure ht₂ fun T hT => .declare _ _ _ _ (htype' T (hgrows.trans hT)) (hvalue' T hT)
  | .assign target value loc =>
    obtain ⟨htarget, hs, hs'⟩ := hs
    refine (gives_expr hs ht).bind fun r t₁ _ ht₁ hr => ?_
    rw [if_pos (isTarget_of_bare_eq htarget (hr t₁ (.refl t₁)))]
    refine (gives_expr hs' ht₁).bind fun r' t₂ hgrows ht₂ hr' => ?_
    exact .pure ht₂ fun T hT => .assign _ _ (hr T (hgrows.trans hT)) (hr' T hT)
  | .evaluate value loc =>
    refine (gives_expr hs ht).bind fun r t₁ _ ht₁ hr => ?_
    exact .pure ht₁ fun T hT => .evaluate _ _ (hr T hT)
  | .ret value loc =>
    refine (gives_exprOpt hs ht).bind fun r t₁ _ ht₁ hr => ?_
    exact .pure ht₁ fun T hT => .ret _ _ (hr T hT)
  | .branch test thenPart elsePart loc =>
    obtain ⟨htest, hthen, helse⟩ := hs
    refine (gives_blockOpt elsePart t helse ht).bind fun e t₁ _ ht₁ he => ?_
    refine (gives_expr htest ht₁).bind fun r t₂ hgrows ht₂ hr => ?_
    refine (gives_block thenPart t₂ hthen ht₂).bind fun b t₃ hgrows' ht₃ hb => ?_
    exact .pure ht₃ fun T hT => .branch _ _ (hr T (hgrows'.trans hT)) (hb T hT)
      (he T (hgrows.trans (hgrows'.trans hT)))
  | .loop test body loc =>
    refine (gives_expr hs.1 ht).bind fun r t₁ _ ht₁ hr => ?_
    refine (gives_block body t₁ hs.2 ht₁).bind fun b t₂ hgrows ht₂ hb => ?_
    exact .pure ht₂ fun T hT => .loop _ _ (hr T (hgrows.trans hT)) (hb T hT)
  | .select scrutinee arms type loc =>
    obtain ⟨hs, rfl, harms⟩ := hs
    refine (gives_expr hs ht).bind fun r t₁ _ ht₁ hr => ?_
    refine (gives_arms arms t₁ harms ht₁).bind fun as t₂ hgrows ht₂ has => ?_
    exact .pure ht₂ fun T hT => .select _ _ (hr T (hgrows.trans hT)) (has T hT) .none
  | .foreign kind => exact hs.elim

lemma gives_block (b : Ownership.Block) (t : TypeTable) (hb : b.Expressible items write)
    (ht : t.Serves items) :
    Gives items (b.written write).bare.build t fun T => Block.Same (Renumbers write T) b := by
  match b with
  | .mk ss loc =>
    refine (gives_stmts ss t hb ht).bind fun rs t₁ _ ht₁ hrs => ?_
    exact .pure ht₁ fun T hT => .mk _ _ (hrs T hT)

lemma gives_blockOpt (b : Option Ownership.Block) (t : TypeTable)
    (hb : Ownership.Block.ExpressibleOpt items write b) (ht : t.Serves items) :
    Gives items (Block.buildOpt (Block.bareOpt (Ownership.Block.writtenOpt write b))) t
      fun T => Option.Rel (Block.Same (Renumbers write T)) b := by
  match b with
  | none => exact .pure ht fun T hT => .none
  | some b => exact .map ((gives_block b t hb ht).mono fun T b' hb => .some hb)

lemma gives_stmts (ss : List Ownership.Stmt) (t : TypeTable)
    (hss : Ownership.Stmt.ExpressibleAll items write ss) (ht : t.Serves items) :
    Gives items (Stmt.buildAll (Stmt.bareAll (Ownership.Stmt.writtenAll write ss))) t
      fun T => List.Forall₂ (Stmt.Same (Renumbers write T)) ss := by
  match ss with
  | [] => exact .pure ht fun T hT => .nil
  | s :: ss =>
    refine (gives_stmt s t hss.1 ht).bind fun r t₁ _ ht₁ hr => ?_
    refine (gives_stmts ss t₁ hss.2 ht₁).bind fun rs t₂ hgrows ht₂ hrs => ?_
    exact .pure ht₂ fun T hT => .cons (hr T (hgrows.trans hT)) (hrs T hT)

lemma gives_arms (as : List Ownership.Arm) (t : TypeTable)
    (has : Ownership.Arm.ExpressibleAll items write as) (ht : t.Serves items) :
    Gives items (Arm.buildAll (Arm.bareAll (Ownership.Arm.writtenAll write as))) t
      fun T => List.Forall₂ (Arm.Same (Renumbers write T)) as := by
  match as with
  | [] => exact .pure ht fun T hT => .nil
  | .mk variant body binders byRef loc :: as =>
    refine (gives_block body t has.2.1 ht).bind fun b t₁ _ ht₁ hb => ?_
    refine (gives_arms as t₁ has.2.2 ht₁).bind fun rs t₂ hgrows ht₂ hrs => ?_
    exact .pure ht₂ fun T hT => .cons (.mk _ _ _ _ _ (hb T (hgrows.trans hT))) (hrs T hT)

end

lemma gives_param {p : Param} {id : TypeId} (hid : p.type = some id)
    (hexpressible : (write id).Expressible items) (ht : t.Serves items) :
    Gives items (p.written write).bare.build t fun T => Param.Same (Renumbers write T) p := by
  have hwrite : write (p.type.getD ⟨0⟩) = write id := by rw [hid, Option.getD_some]
  rw [Param.written, hwrite]
  refine (gives_type hexpressible ht).bind fun id' t₁ _ ht₁ hid' => ?_
  refine .pure ht₁ fun T hT => ⟨rfl, ?_, rfl⟩
  rw [hid]
  exact .some (hid' T hT)

lemma gives_function {f : Function} (hf : f.Expressible items write) (ht : t.Serves items) :
    Gives items (f.written write).bare.build t fun T => Function.Same (Renumbers write T) f := by
  have hparams : ∀ p ∈ f.params, ∀ t : TypeTable, t.Serves items →
      Gives items (p.written write).bare.build t fun T => Param.Same (Renumbers write T) p := by
    intro p hp t ht
    obtain ⟨-, id, hid, hexpressible⟩ := hf.params p hp
    exact gives_param hid hexpressible ht
  have hparams' := Gives.mapM (χ := ParamDecl.bare ∘ Param.written write) hparams ht
  rw [← List.map_map] at hparams'
  refine hparams'.bind fun ps t₁ _ ht₁ hps => ?_
  refine (gives_typeOpt hf.returnType ht₁).bind fun type t₂ hgrows ht₂ htype => ?_
  refine (gives_block f.body t₂ hf.body ht₂).bind fun b t₃ hgrows' ht₃ hb => ?_
  refine .pure ht₃ fun T hT => ⟨rfl, ?_, ?_, hb T hT⟩
  · exact hps T (hgrows.trans (hgrows'.trans hT))
  · exact htype T (hgrows'.trans hT)

end

end Ownership.Sketch
