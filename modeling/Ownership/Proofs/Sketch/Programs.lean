import Ownership.Proofs.Sketch.Building
import Ownership.Proofs.Sketch.Declaring

/-!
# Taking whole programs back

Declarations of types that come before a function only fill the type table: all their names are
declared first, and what they are made of is filled in later. The function is then taken as it was.
-/

namespace Ownership

/-! ### Spans do not tell functions apart -/

mutual

lemma Expr.bare_expr_bare (e : Expr) : (Guise.bare.expr e).bare = e.bare := by
  match e with
  | .absent | .literal _ _ | .var _ _ | .foreign _ => rfl
  | .field e _ _ | .deref e _ | .borrow e _ _ =>
    rw [Guise.expr, Expr.bare, Expr.bare, Expr.bare_expr_bare e]
  | .call _ args _ | .construct _ _ args _ =>
    rw [Guise.expr, Expr.bare, Expr.bare, Expr.bareAll_exprs_bare args]
  | .binary _ l r _ =>
    rw [Guise.expr, Expr.bare, Expr.bare, Expr.bare_expr_bare l, Expr.bare_expr_bare r]

lemma Expr.bareAll_exprs_bare (es : List Expr) :
    Expr.bareAll (Guise.bare.exprs es) = Expr.bareAll es := by
  match es with
  | [] => rfl
  | e :: es =>
    rw [Guise.exprs, Expr.bareAll, Expr.bareAll, Expr.bare_expr_bare e, Expr.bareAll_exprs_bare es]

end

variable {R : TypeId → TypeId → Prop}

mutual

lemma Stmt.Same.of_bare {s : Stmt} (s' : Stmt) (h : Stmt.Same R s (Guise.bare.stmt s')) :
    Stmt.Same R s s' := by
  match s' with
  | .block b =>
    cases h with
    | block hb => exact .block (Block.Same.of_bare b hb)
  | .declare name type value mutable loc =>
    rw [Guise.stmt, Guise.map_type_bare] at h
    cases h with
    | declare _ _ _ _ htype hvalue =>
      exact .declare _ _ _ _ htype (hvalue.trans value.bare_expr_bare)
  | .assign target value loc =>
    cases h with
    | assign _ _ htarget hvalue =>
      exact .assign _ _ (htarget.trans target.bare_expr_bare) (hvalue.trans value.bare_expr_bare)
  | .evaluate value loc =>
    cases h with
    | evaluate _ _ hvalue => exact .evaluate _ _ (hvalue.trans value.bare_expr_bare)
  | .ret value loc =>
    cases h with
    | ret _ _ hvalue => exact .ret _ _ (hvalue.trans value.bare_expr_bare)
  | .branch test t e loc =>
    cases h with
    | branch _ _ htest ht he =>
      exact .branch _ _ (htest.trans test.bare_expr_bare) (Block.Same.of_bare t ht)
        (Block.Same.opt_of_bare e he)
  | .loop test b loc =>
    cases h with
    | loop _ _ htest hb =>
      exact .loop _ _ (htest.trans test.bare_expr_bare) (Block.Same.of_bare b hb)
  | .select e arms type loc =>
    rw [Guise.stmt, Guise.map_type_bare] at h
    cases h with
    | select _ _ he harms htype =>
      exact .select _ _ (he.trans e.bare_expr_bare) (Arm.Same.all_of_bare arms harms) htype
  | .foreign kind =>
    cases h
    exact .foreign kind

lemma Block.Same.of_bare {b : Block} (b' : Block) (h : Block.Same R b (Guise.bare.block b')) :
    Block.Same R b b' := by
  match b' with
  | .mk ss loc =>
    cases h with
    | mk _ _ hss => exact .mk _ _ (Stmt.Same.all_of_bare ss hss)

lemma Block.Same.opt_of_bare {b : Option Block} (b' : Option Block)
    (h : Option.Rel (Block.Same R) b (Guise.bare.blockOpt b')) :
    Option.Rel (Block.Same R) b b' := by
  match b' with
  | none => exact h
  | some b' =>
    cases h with
    | some hb => exact .some (Block.Same.of_bare b' hb)

lemma Stmt.Same.all_of_bare {ss : List Stmt} (ss' : List Stmt)
    (h : List.Forall₂ (Stmt.Same R) ss (Guise.bare.stmts ss')) :
    List.Forall₂ (Stmt.Same R) ss ss' := by
  match ss' with
  | [] => exact h
  | s' :: ss' =>
    cases h with
    | cons hs hss => exact .cons (Stmt.Same.of_bare s' hs) (Stmt.Same.all_of_bare ss' hss)

lemma Arm.Same.all_of_bare {as : List Arm} (as' : List Arm)
    (h : List.Forall₂ (Arm.Same R) as (Guise.bare.arms as')) :
    List.Forall₂ (Arm.Same R) as as' := by
  match as' with
  | [] => exact h
  | .mk variant b binders byRef loc :: as' =>
    cases h with
    | cons ha has =>
      cases ha with
      | mk _ _ _ _ _ hb =>
        exact .cons (.mk _ _ _ _ _ (Block.Same.of_bare b hb)) (Arm.Same.all_of_bare as' has)

end

lemma Function.Same.of_bare {f f' : Function} (h : f.Same R (Guise.bare.function f')) :
    f.Same R f' where
  name := h.name
  params := by
    have hparams := h.params
    rw [Guise.function, List.forall₂_map_right_iff] at hparams
    refine hparams.imp fun p p' hp => ⟨hp.name, ?_, hp.mutable⟩
    have htype := hp.type
    rwa [Guise.param, Guise.map_type_bare] at htype
  returnType := by
    have htype := h.returnType
    rwa [Guise.function, Guise.map_type_bare] at htype
  body := Block.Same.of_bare f'.body h.body

namespace Sketch

open Build

variable {items is : List Item} {t : TypeTable} {write : TypeId → TypeExpr} {name : String}

/-! ### Types are defined -/

lemma gives_define {step : TypeTable → TypeId → Except Fault TypeTable} {shape : Shape}
    (h : ∃ id t', t.lookup name = some id ∧ step t id = .ok t' ∧ t.Shapes items t' name shape) :
    Gives items (define name .unknown step) t fun _ _ => True := by
  obtain ⟨id, t', hid, hstep, hshapes⟩ := h
  exact ⟨(), t', define_eq_ok hid hstep, hshapes.grows, hshapes.serves, fun _ _ => trivial⟩

lemma gives_structField {f : StructField} (hf : f.type.Expressible items) (ht : t.Serves items) :
    Gives items f.bare.build t fun _ _ => True :=
  (gives_type hf ht).bind fun _ _ _ ht₁ _ => .pure ht₁ fun _ _ => trivial

lemma gives_armFields {fs : List ArmField} (i : Nat) (hfs : ∀ f ∈ fs, f.type.Expressible items)
    (ht : t.Serves items) :
    Gives items (ArmField.buildAll i (fs.map ArmField.bare)) t fun _ _ => True := by
  induction fs generalizing i t with
  | nil => exact .pure ht fun _ _ => trivial
  | cons f fs ih =>
    refine (gives_type (hfs f (by simp)) ht).bind fun _ t₁ _ ht₁ _ => ?_
    refine (ih (i + 1) (fun g hg => hfs g (by simp [hg])) ht₁).bind fun _ t₂ _ ht₂ _ => ?_
    exact .pure ht₂ fun _ _ => trivial

lemma gives_armDecl {a : ArmDecl} (ha : ∀ f ∈ a.fields, f.type.Expressible items)
    (ht : t.Serves items) : Gives items a.bare.build t fun _ _ => True :=
  (gives_armFields 0 ha ht).bind fun _ _ _ ht₁ _ => .pure ht₁ fun _ _ => trivial

lemma gives_item {i : Item} (o : Outline) (hmem : i ∈ items) (hi : i.Expressible items)
    (ht : t.Serves items) : Gives items (i.bare.build o) t fun _ o' => o' = o := by
  cases i with
  | struct name fields loc =>
    have hname : name ∈ structNames items := List.mem_filterMap.2 ⟨_, hmem, rfl⟩
    have hbuild := Gives.mapM (Q := fun _ _ _ => True)
      (fun f hf t ht => gives_structField (hi.2 f hf).2 ht) ht
    refine hbuild.bind fun fields' t₁ _ ht₁ _ => ?_
    refine (gives_define (ht₁.defineStruct hname fields')).bind fun _ t₂ _ ht₂ _ => ?_
    exact .pure ht₂ fun _ _ => rfl
  | variant name arms loc =>
    have hname : name ∈ variantNames items := List.mem_filterMap.2 ⟨_, hmem, rfl⟩
    have hbuild := Gives.mapM (Q := fun _ _ _ => True)
      (fun a ha t ht => gives_armDecl (fun f hf => ((hi.2.2 a ha).2 f hf).2) ht) ht
    refine hbuild.bind fun arms' t₁ _ ht₁ _ => ?_
    refine (gives_define (ht₁.defineVariant hname arms')).bind fun _ t₂ _ ht₂ _ => ?_
    exact .pure ht₂ fun _ _ => rfl
  | outside | function => exact hi.elim

lemma gives_items (o : Outline) (hmem : is ⊆ items) (his : ∀ i ∈ is, i.Expressible items)
    (ht : t.Serves items) :
    Gives items ((is.map Item.bare).foldlM Item.build o) t fun _ o' => o' = o := by
  induction is generalizing t with
  | nil => exact .pure ht fun _ _ => rfl
  | cons i is ih =>
    refine (gives_item o (hmem (by simp)) (his i (by simp)) ht).bind fun o₁ t₁ _ ht₁ ho₁ => ?_
    obtain rfl := ho₁ t₁ (.refl t₁)
    exact ih (fun j hj => hmem (by simp [hj])) (fun j hj => his j (by simp [hj])) ht₁

/-! ### Programs -/

lemma structNames_map_bare (is : List Item) : structNames (is.map Item.bare) = structNames is := by
  rw [structNames, structNames, List.filterMap_map]
  congr 1
  funext i
  cases i <;> rfl

lemma variantNames_map_bare (is : List Item) :
    variantNames (is.map Item.bare) = variantNames is := by
  rw [variantNames, variantNames, List.filterMap_map]
  congr 1
  funext i
  cases i <;> rfl

/-- Declarations of types with a function after them are a program of that function. -/
lemma exists_build {f : Function} (hitems : Declares items) (hf : f.Expressible items write)
    (h : is.map Item.bare = (items ++ [Item.function (f.written write)]).map Item.bare) :
    ∃ p f', build is = .ok p ∧ p.functions = [f'] ∧ f.Same (Renumbers write p.types) f' ∧
      p.types.Registered := by
  have hstructs : structNames (is.map Item.bare) = structNames items := by
    rw [h, structNames_map_bare, structNames_append]
    simp [structNames]
  have hvariants : variantNames (is.map Item.bare) = variantNames items := by
    rw [h, variantNames_map_bare, variantNames_append]
    simp [variantNames]
  have hnames : (typeNames (is.map Item.bare)).Nodup := by
    rw [typeNames, hstructs, hvariants]
    exact hitems.names
  obtain ⟨t₀, hdeclare⟩ := declared_builtinTable.exists_declares hnames
  have ht₀ : t₀.Serves items := by
    refine (declared_builtinTable.declares (by decide) hdeclare).1.toServes.of_perm ?_ ?_
    · rw [List.nil_append, hstructs]
    · rw [List.nil_append, hvariants]
  have hbuild : Gives items ((is.map Item.bare).foldlM Item.build {}) t₀
      fun T o => ∃ f', o.functions = [f'] ∧ f.Same (Renumbers write T) f' := by
    rw [h, List.map_append, List.foldlM_append]
    refine (gives_items {} (List.Subset.refl items) hitems.each ht₀).bind fun o t₁ _ ht₁ ho => ?_
    obtain rfl := ho t₁ (.refl t₁)
    rw [List.map_singleton, List.foldlM_cons]
    simp only [List.foldlM_nil, bind_pure]
    refine (gives_function hf ht₁).bind fun f' t₂ _ ht₂ hf' => ?_
    exact .pure ht₂ fun T hT => ⟨f', rfl, hf' T hT⟩
  obtain ⟨o, T, ho, -, hT, hsame⟩ := hbuild
  obtain ⟨f₀, hfunctions, hf₀⟩ := hsame T (.refl T)
  obtain ⟨p, hp, hbare⟩ :=
    exists_build_of_map_bare (build_eq_ok_iff.2 ⟨t₀, o, T, hdeclare, ho, rfl⟩)
  obtain rfl : p.types = T := congrArg Program.types hbare
  have hmap : p.functions.map Guise.bare.function = [f₀] :=
    (congrArg Program.functions hbare).trans hfunctions
  obtain ⟨f', hf', rfl⟩ := List.map_eq_singleton_iff.1 hmap
  exact ⟨p, f', hp, hf', hf₀.of_bare, hT.registered⟩

end Sketch

end Ownership
