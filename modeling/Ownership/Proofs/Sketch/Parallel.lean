import Ownership.Proofs.Guise.Types
import Ownership.Proofs.Sketch.Building

/-!
# One sketch at two tables

Tables that serve the same declarations may have other numbers for the same types. What is taken at
one of them can be taken at the other one as well (`Build.Follows`). The results are the same but
for the numbers of types, and a type that is new in the first table is then written in the second
one, too.
-/

namespace Ownership

/-- The guise that only gives other numbers to types. -/
def Guise.renumbering (ρ : Equiv.Perm TypeId) : Guise where
  span s := s
  type := ρ
  span_unknown := rfl
  span_orElse _ _ := rfl

lemma Guise.expr_renumbering (ρ : Equiv.Perm TypeId) (e : Expr) : (renumbering ρ).expr e = e :=
  expr_eq_self (fun _ => rfl) e

namespace Sketch

variable {α β γ δ : Type} {items : List Item} {t t₂ t' t₂' T T₂ : TypeTable}

/-- Types that are written alike in two tables have numbers that belong together. -/
def Aligns (ρ : Equiv.Perm TypeId) (T T₂ : TypeTable) : Prop :=
  ∀ (e : TypeExpr) (i j : TypeId), e.idIn T = some i → e.idIn T₂ = some j → ρ i = j

/-! ### Steps -/

/-- Two tables grow, the second one at least by what the first one grows by. -/
structure Advances (items : List Item) (t t₂ t' t₂' : TypeTable) : Prop where
  serves : t'.Serves items
  serves₂ : t₂'.Serves items
  grows : t.Grows t'
  grows₂ : t₂.Grows t₂'
  keeps : t.Keeps t'
  within : ∀ e : TypeExpr, (e.idIn t').isSome → (e.idIn t).isSome ∨ (e.idIn t₂').isSome

lemma Advances.refl (ht : t.Serves items) (ht₂ : t₂.Serves items) : Advances items t t₂ t t₂ where
  serves := ht
  serves₂ := ht₂
  grows := .refl t
  grows₂ := .refl t₂
  keeps := .refl t
  within _ he := .inl he

lemma Advances.trans {t'' t₂'' : TypeTable} (h : Advances items t t₂ t' t₂')
    (h' : Advances items t' t₂' t'' t₂'') : Advances items t t₂ t'' t₂'' where
  serves := h'.serves
  serves₂ := h'.serves₂
  grows := h.grows.trans h'.grows
  grows₂ := h.grows₂.trans h'.grows₂
  keeps := h.keeps.trans h'.keeps
  within e he := by
    rcases h'.within e he with he | he
    · exact (h.within e he).imp_right h'.grows₂.isSome_idIn
    · exact .inr he

/-- If the step succeeds at one table, then it does at the other one, and the result is the same
but for the numbers of types. -/
def Build.Follows (items : List Item) (b : Build α) (φ : Guise → α → α) : Prop :=
  ∀ t t₂, t.Serves items → t₂.Serves items → ∀ a t', b t = .ok (a, t') →
    ∃ a₂ t₂', b t₂ = .ok (a₂, t₂') ∧ Advances items t t₂ t' t₂' ∧
      ∀ T T₂ ρ, t'.Grows T → t₂'.Grows T₂ → Aligns ρ T T₂ → φ (.renumbering ρ) a = a₂

/-- The step only looks at the table, and sees the same in both tables. -/
def Build.Settled (items : List Item) (b : Build α) : Prop :=
  ∀ t t₂, t.Serves items → t₂.Serves items → ∀ a t', b t = .ok (a, t') → t' = t ∧ b t₂ = .ok (a, t₂)

namespace Build

variable {b : Build α} {c : Build β} {φ : Guise → α → α} {ψ : Guise → β → β} {χ : Guise → γ → γ}

lemma exists_of_bind {f : α → Build γ} {c : γ} {t'' : TypeTable} (h : (b >>= f) t = .ok (c, t'')) :
    ∃ a t', b t = .ok (a, t') ∧ f a t' = .ok (c, t'') := by
  cases hb : b t with
  | error e => simp [Bind.bind, StateT.bind, Except.bind, hb] at h
  | ok r =>
    obtain ⟨a, t'⟩ := r
    exact ⟨a, t', rfl, by simpa [Bind.bind, StateT.bind, Except.bind, hb] using h⟩

lemma bind_eq_of_ok {f : α → Build γ} {a : α} (h : b t = .ok (a, t')) : (b >>= f) t = f a t' := by
  simp [Bind.bind, StateT.bind, Except.bind, h]

namespace Follows

lemma pure {a : α} (h : ∀ ρ, φ (.renumbering ρ) a = a) : Follows items (pure a) φ := by
  intro t t₂ ht ht₂ x t' hx
  cases hx
  exact ⟨a, t₂, rfl, .refl ht ht₂, fun _ _ ρ _ _ _ => h ρ⟩

lemma fail (e : Error) : Follows items (fail e) φ := fun _ _ _ _ _ _ h => nomatch h

variable (h : Follows items b φ)

include h

lemma map {f : α → γ} (hf : ∀ ρ x, χ (.renumbering ρ) (f x) = f (φ (.renumbering ρ) x)) :
    Follows items (b >>= fun x => Pure.pure (f x)) χ := by
  intro t t₂ ht ht₂ c t' hc
  obtain ⟨a, u, hb, hpure⟩ := exists_of_bind hc
  obtain ⟨rfl, rfl⟩ := Prod.mk.inj (Except.ok.inj hpure)
  obtain ⟨a₂, u₂, hb₂, hadvances, hlinked⟩ := h t t₂ ht ht₂ a u hb
  refine ⟨f a₂, u₂, bind_eq_of_ok hb₂, hadvances, fun T T₂ ρ hT hT₂ hρ => ?_⟩
  rw [hf, hlinked T T₂ ρ hT hT₂ hρ]

lemma pair (h' : Follows items c ψ) :
    Follows items (b >>= fun x => c >>= fun y => Pure.pure (x, y))
      fun g => Prod.map (φ g) (ψ g) := by
  intro t t₂ ht ht₂ r t' hr
  obtain ⟨x, u, hx, hrest⟩ := exists_of_bind hr
  obtain ⟨y, v, hy, hpure⟩ := exists_of_bind hrest
  obtain ⟨rfl, rfl⟩ := Prod.mk.inj (Except.ok.inj hpure)
  obtain ⟨x₂, u₂, hx₂, hu, hlinked⟩ := h t t₂ ht ht₂ x u hx
  obtain ⟨y₂, v₂, hy₂, hv, hlinked'⟩ := h' u u₂ hu.serves hu.serves₂ y v hy
  refine ⟨(x₂, y₂), v₂, ?_, hu.trans hv, fun T T₂ ρ hT hT₂ hρ => ?_⟩
  · rw [bind_eq_of_ok hx₂, bind_eq_of_ok hy₂]
    rfl
  · exact Prod.ext (hlinked T T₂ ρ (hv.grows.trans hT) (hv.grows₂.trans hT₂) hρ)
      (hlinked' T T₂ ρ hT hT₂ hρ)

lemma map₂ {f : α → β → γ} (h' : Follows items c ψ)
    (hf : ∀ ρ x y, χ (.renumbering ρ) (f x y) = f (φ (.renumbering ρ) x) (ψ (.renumbering ρ) y)) :
    Follows items (b >>= fun x => c >>= fun y => Pure.pure (f x y)) χ := by
  have hpair := (h.pair h').map (f := fun r => f r.1 r.2) (χ := χ) fun ρ r => hf ρ r.1 r.2
  simpa only [bind_assoc, pure_bind] using hpair

lemma map₃ {d : Build γ} {ω : Guise → δ → δ} {f : α → β → γ → δ} (h' : Follows items c ψ)
    (h'' : Follows items d χ)
    (hf : ∀ ρ x y z, ω (.renumbering ρ) (f x y z) =
      f (φ (.renumbering ρ) x) (ψ (.renumbering ρ) y) (χ (.renumbering ρ) z)) :
    Follows items (b >>= fun x => c >>= fun y => d >>= fun z => Pure.pure (f x y z)) ω := by
  have hpair := (h.pair h').map₂ (f := fun r z => f r.1 r.2 z) (χ := ω) h'' fun ρ r => hf ρ r.1 r.2
  simpa only [bind_assoc, pure_bind] using hpair

omit h

/-- What holds of every step holds of the steps of a list, one after the other. -/
lemma mapM {f : α → Build γ} (hf : ∀ x, Follows items (f x) χ) (xs : List α) :
    Follows items (xs.mapM f) fun g => List.map (χ g) := by
  induction xs with
  | nil => exact pure fun _ => rfl
  | cons x xs ih =>
    rw [List.mapM_cons]
    exact (hf x).map₂ ih fun _ _ _ => rfl

end Follows

namespace Settled

lemma bind {f : α → Build β} (h : Settled items b) (hf : ∀ a, Follows items (f a) ψ) :
    Follows items (b >>= f) ψ := by
  intro t t₂ ht ht₂ c t' hc
  obtain ⟨a, u, hb, hrest⟩ := exists_of_bind hc
  obtain ⟨rfl, hb₂⟩ := h t t₂ ht ht₂ a u hb
  rw [bind_eq_of_ok hb₂]
  exact hf a u t₂ ht ht₂ c t' hrest

lemma follows (h : Settled items b) (hφ : ∀ ρ a, φ (.renumbering ρ) a = a) : Follows items b φ := by
  have hbind := h.bind fun a => Follows.pure (φ := φ) fun ρ => hφ ρ a
  rwa [bind_pure] at hbind

end Settled

end Build

open Build

/-! ### Types -/

lemma exists_build_typeExpr {e : TypeExpr} {i : TypeId} (ht : t.Serves items)
    (ht₂ : t₂.Serves items) (h : e.build t = .ok (i, t')) :
    ∃ j t₂', e.build t₂ = .ok (j, t₂') ∧ Advances items t t₂ t' t₂' ∧
      e.idIn t' = some i ∧ e.idIn t₂' = some j := by
  induction e using TypeExpr.wrap_induction generalizing i t' with
  | named name loc =>
    cases hid : t.lookup name with
    | none => simp [TypeExpr.build, Build.ask, hid, Except.map] at h
    | some id =>
      obtain ⟨rfl, rfl⟩ : id = i ∧ t = t' := by
        simpa [TypeExpr.build, Build.ask, hid, Except.map] using h
      have hknown : name ∈ typeNames items := (ht.known name).1 (by simp [hid])
      obtain ⟨j, hj⟩ := Option.isSome_iff_exists.1 ((ht₂.known name).2 hknown)
      exact ⟨j, t₂, by simp [TypeExpr.build, Build.ask, hj, Except.map], .refl ht ht₂, hid, hj⟩
  | wrap e w ih =>
    rw [TypeExpr.build_wrap] at h
    obtain ⟨k, u, hk, h⟩ := exists_of_bind h
    obtain ⟨k₂, u₂, hk₂, hu, hi, hj⟩ := ih hk
    obtain ⟨d, hd⟩ := hu.serves.exists_get? hi
    obtain ⟨d₂, hd₂⟩ := hu.serves₂.exists_get? hj
    obtain ⟨id, v, hstep, hgains, hid⟩ := hu.serves.wrap hd w
    obtain ⟨id₂, v₂, hstep₂, hgains₂, hid₂⟩ := hu.serves₂.wrap hd₂ w
    obtain ⟨rfl, rfl⟩ : id = i ∧ v = t' := by
      simpa [Build.table, hstep, Except.mapError] using h
    have hidIn := TypeTable.idIn_wrap_eq_some_iff.2 ⟨k, hgains.grows.idIn hi, hid⟩
    have hidIn₂ := TypeTable.idIn_wrap_eq_some_iff.2 ⟨k₂, hgains₂.grows.idIn hj, hid₂⟩
    have hlast : Advances items u u₂ v v₂ := by
      refine ⟨hgains.serves, hgains₂.serves, hgains.grows, hgains₂.grows, hgains.keeps,
        fun x hx => ?_⟩
      refine (hgains.within hx).imp_right fun hx => ?_
      rw [TypeExpr.idIn_eq_of_bare_eq (hgains.serves.registered.bare_eq hx hidIn), hidIn₂]
      rfl
    refine ⟨id₂, v₂, ?_, hu.trans hlast, hidIn, hidIn₂⟩
    rw [TypeExpr.build_wrap, bind_eq_of_ok hk₂]
    simp [Build.table, hstep₂, Except.mapError]

lemma follows_type (e : TypeExpr) : Follows items e.build fun g => g.type := by
  intro t t₂ ht ht₂ i t' hi
  obtain ⟨j, t₂', hj, hadvances, hidIn, hidIn₂⟩ := exists_build_typeExpr ht ht₂ hi
  exact ⟨j, t₂', hj, hadvances, fun T T₂ ρ hT hT₂ hρ => hρ e i j (hT.idIn hidIn) (hT₂.idIn hidIn₂)⟩

lemma follows_typeOpt (e : Option TypeExpr) :
    Follows items (TypeExpr.buildOpt e) fun g => Option.map g.type := by
  cases e with
  | none => exact .pure fun _ => rfl
  | some e =>
    rw [TypeExpr.buildOpt, map_eq_pure_bind]
    exact (follows_type e).map fun _ _ => rfl

/-! ### Expressions -/

lemma isStructName_eq (ht : t.Serves items) (ht₂ : t₂.Serves items) (name : String) :
    isStructName t₂ name = isStructName t name := by
  rw [Bool.eq_iff_iff, isStructName_iff ht₂, isStructName_iff ht]

mutual

lemma resolve_eq (ht : t.Serves items) (ht₂ : t₂.Serves items) (e : Expr) :
    resolve t₂ e = resolve t e := by
  match e with
  | .numeral _ _ | .truth _ _ | .text _ _ | .var _ _ => rfl
  | .field e _ _ | .deref e _ | .borrow e _ _ => rw [resolve, resolve, resolve_eq ht ht₂ e]
  | .call callee args _ =>
    rw [resolve, resolve, resolveAll_eq ht ht₂ args, isStructName_eq ht ht₂ callee]
  | .binary _ l r _ => rw [resolve, resolve, resolve_eq ht ht₂ l, resolve_eq ht ht₂ r]
  | .variant typeName _ args _ =>
    have hknown : (t₂.lookup typeName).isSome = (t.lookup typeName).isSome := by
      rw [Bool.eq_iff_iff, ht.known, ht₂.known]
    rw [resolve, resolve, resolveAll_eq ht ht₂ args]
    cases h : t.lookup typeName <;> cases h₂ : t₂.lookup typeName <;> simp [h, h₂] at hknown ⊢

lemma resolveAll_eq (ht : t.Serves items) (ht₂ : t₂.Serves items) (es : List Expr) :
    resolveAll t₂ es = resolveAll t es := by
  match es with
  | [] => rfl
  | e :: es => rw [resolveAll, resolveAll, resolve_eq ht ht₂ e, resolveAll_eq ht ht₂ es]

end

lemma settled_expr (e : Expr) : Settled items (buildExpr e) := by
  intro t t₂ ht ht₂ r t' hr
  cases hresolve : resolve t e with
  | error err => simp [buildExpr, Build.ask, hresolve, Except.map] at hr
  | ok r' =>
    obtain ⟨rfl, rfl⟩ : r' = r ∧ t = t' := by
      simpa [buildExpr, Build.ask, hresolve, Except.map] using hr
    exact ⟨rfl, by simp [buildExpr, Build.ask, resolve_eq ht ht₂, hresolve, Except.map]⟩

lemma follows_expr (e : Expr) : Follows items (buildExpr e) Guise.expr :=
  (settled_expr e).follows Guise.expr_renumbering

lemma follows_exprOpt (e : Option Expr) : Follows items (buildExprOpt e) Guise.expr := by
  cases e with
  | none => exact .pure fun _ => rfl
  | some e => exact follows_expr e

/-! ### Statements -/

mutual

lemma follows_stmt (s : Stmt) : Follows items s.build Guise.stmt := by
  match s with
  | .block b =>
    rw [Stmt.build, map_eq_pure_bind]
    exact (follows_block b).map fun _ _ => rfl
  | .declare _ _ type value _ =>
    exact (follows_typeOpt type).map₂ (follows_exprOpt value) fun _ _ _ => rfl
  | .assign target value _ =>
    refine (settled_expr target).bind fun r => ?_
    split
    · refine (follows_expr value).map fun ρ r' => ?_
      rw [Guise.stmt, Guise.expr_renumbering]
      rfl
    · exact .fail _
  | .evaluate value _ => exact (follows_expr value).map fun _ _ => rfl
  | .ret value _ => exact (follows_exprOpt value).map fun _ _ => rfl
  | .branch test t e _ =>
    exact (follows_blockOpt e).map₃ (follows_expr test) (follows_block t) fun _ _ _ _ => rfl
  | .loop test body _ => exact (follows_expr test).map₂ (follows_block body) fun _ _ _ => rfl
  | .select e arms _ => exact (follows_expr e).map₂ (follows_arms arms) fun _ _ _ => rfl

lemma follows_block (b : Block) : Follows items b.build Guise.block := by
  match b with
  | .mk ss _ => exact (follows_stmts ss).map fun _ _ => rfl

lemma follows_blockOpt (b : Option Block) : Follows items (Block.buildOpt b) Guise.blockOpt := by
  match b with
  | none => exact .pure fun _ => rfl
  | some b =>
    rw [Block.buildOpt, map_eq_pure_bind]
    exact (follows_block b).map fun _ _ => rfl

lemma follows_stmts (ss : List Stmt) : Follows items (Stmt.buildAll ss) Guise.stmts := by
  match ss with
  | [] => exact .pure fun _ => rfl
  | s :: ss => exact (follows_stmt s).map₂ (follows_stmts ss) fun _ _ _ => rfl

lemma follows_arms (as : List Arm) : Follows items (Arm.buildAll as) Guise.arms := by
  match as with
  | [] => exact .pure fun _ => rfl
  | .mk _ _ _ body _ :: as => exact (follows_block body).map₂ (follows_arms as) fun _ _ _ => rfl

end

/-! ### Declarations -/

lemma follows_structField (f : StructField) : Follows items f.build Guise.field :=
  (follows_type f.type).map fun _ _ => rfl

lemma follows_armFields (fs : List ArmField) (i : Nat) :
    Follows items (ArmField.buildAll i fs) fun g => List.map g.field := by
  induction fs generalizing i with
  | nil => exact .pure fun _ => rfl
  | cons f fs ih => exact (follows_type f.type).map₂ (ih (i + 1)) fun _ _ _ => rfl

lemma follows_armDecl (a : ArmDecl) : Follows items a.build Guise.variantArm :=
  (follows_armFields a.fields 0).map fun _ _ => rfl

lemma follows_param (p : ParamDecl) : Follows items p.build Guise.param :=
  (follows_type p.type).map fun _ _ => rfl

lemma follows_function (f : FunctionDecl) : Follows items f.build Guise.function :=
  (Follows.mapM follows_param f.params).map₃ (follows_typeOpt f.returnType) (follows_block f.body)
    fun _ _ _ _ => rfl

/-- What a declaration says, after its types have been looked up. -/
inductive Part where
  | struct (name : String) (fields : List FieldDecl) (loc : Span)
  | variant (name : String) (arms : List VariantArm) (loc : Span)
  | outside (sig : Signature)
  | function (f : Function)

def Part.inGuise (g : Guise) : Part → Part
  | struct name fields loc => .struct name (fields.map g.field) loc
  | variant name arms loc => .variant name (arms.map g.variantArm) loc
  | outside sig => .outside (g.signature sig)
  | function f => .function (g.function f)

def Item.take : Item → Build Part
  | struct name fields loc => return .struct name (← fields.mapM (·.build)) loc
  | variant name arms loc => return .variant name (← arms.mapM (·.build)) loc
  | outside name modes type => return .outside ⟨name, modes, ← TypeExpr.buildOpt type⟩
  | function decl => return .function (← decl.build)

/-- Puts what a declaration says where it belongs. -/
def Part.record (o : Outline) : Part → Build Outline
  | struct name fields loc => do
    define name loc (·.defineStruct · fields)
    return o
  | variant name arms loc => do
    define name loc (·.defineVariant · arms)
    return o
  | outside sig => return { o with externs := o.externs.insert sig.name sig }
  | function f => return { o with functions := o.functions ++ [f] }

lemma Item.build_eq_bind (o : Outline) (i : Item) : i.build o = i.take >>= Part.record o := by
  cases i <;> simp [Item.build, Item.take, Part.record]

lemma follows_take (i : Item) : Follows items i.take Part.inGuise := by
  cases i with
  | struct _ fields _ => exact (Follows.mapM follows_structField fields).map fun _ _ => rfl
  | variant _ arms _ => exact (Follows.mapM follows_armDecl arms).map fun _ _ => rfl
  | outside _ _ type => exact (follows_typeOpt type).map fun _ _ => rfl
  | function decl => exact (follows_function decl).map fun _ _ => rfl

end Sketch

end Ownership
