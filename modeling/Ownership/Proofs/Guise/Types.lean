import Ownership.Proofs.Guise.Scopes
import Ownership.Proofs.Types.Alike
import Ownership.Proofs.Types.Memory

/-!
# Types in another guise

A table need not list its types in the order of another one to be the same table in some guise: it
has to have, under the new number of a type, the definition of the type in the guise. Types inside a
function are then found as before, since they are found by looking up numbers and names only.
-/

namespace Ownership

open Fault List

namespace Guise

variable {g : Guise}

/-! ### Definitions -/

section Definitions

variable (d : TypeDef)

@[simp] lemma name_typeDef : (g.typeDef d).name = d.name := rfl

lemma shape_typeDef : (g.typeDef d).shape = g.shape d.shape := rfl

@[simp] lemma isRef_typeDef : (g.typeDef d).isRef = d.isRef := by
  unfold TypeDef.isRef
  rw [shape_typeDef]
  cases d.shape <;> rfl

@[simp] lemma isMutRef_typeDef : (g.typeDef d).isMutRef = d.isMutRef := by
  unfold TypeDef.isMutRef
  rw [shape_typeDef]
  cases d.shape <;> rfl

@[simp] lemma isStruct_typeDef : (g.typeDef d).isStruct = d.isStruct := by
  unfold TypeDef.isStruct
  rw [shape_typeDef]
  cases d.shape <;> rfl

@[simp] lemma isVariant_typeDef : (g.typeDef d).isVariant = d.isVariant := by
  unfold TypeDef.isVariant
  rw [shape_typeDef]
  cases d.shape <;> rfl

@[simp] lemma pointee?_typeDef : (g.typeDef d).pointee? = d.pointee?.map g.type := by
  unfold TypeDef.pointee?
  rw [shape_typeDef]
  cases d.shape <;> rfl

@[simp] lemma fields_typeDef : (g.typeDef d).fields = d.fields.map g.field := by
  unfold TypeDef.fields
  rw [shape_typeDef]
  cases d.shape <;> rfl

@[simp] lemma arms_typeDef : (g.typeDef d).arms = d.arms.map g.variantArm := by
  unfold TypeDef.arms
  rw [shape_typeDef]
  cases d.shape <;> rfl

@[simp] lemma field?_typeDef (name : String) :
    (g.typeDef d).field? name = (d.field? name).map g.field := by
  rw [TypeDef.field?, TypeDef.field?, fields_typeDef, FieldDecl.find?, FieldDecl.find?,
    find?_map]
  rfl

@[simp] lemma arm?_typeDef (name : String) :
    (g.typeDef d).arm? name = (d.arm? name).map g.variantArm := by
  rw [TypeDef.arm?, TypeDef.arm?, arms_typeDef, find?_map]
  rfl

@[simp] lemma variantNames_typeDef : (g.typeDef d).variantNames = d.variantNames := by
  rw [TypeDef.variantNames, TypeDef.variantNames, arms_typeDef, map_map]
  rfl

variable (g) in
def copyRule : TypeDef.CopyRule → TypeDef.CopyRule
  | .settled copy => .settled copy
  | .fields fields => .fields (fields.map g.field)

lemma copyRule_typeDef : (g.typeDef d).copyRule = g.copyRule d.copyRule := by
  unfold TypeDef.copyRule
  rw [shape_typeDef]
  cases d.shape with
  | variant arms =>
    simp only [shape, copyRule, flatMap_map, map_flatMap]
    rfl
  | _ => rfl

section

variable (hg : ∀ id, g.type id = id)

include hg

lemma typeDef_eq_self : g.typeDef d = d := by
  have hfield : g.field = id := by
    funext f
    simp [field, hg]
  have harm : g.variantArm = id := by
    funext a
    simp [variantArm, hfield]
  obtain ⟨name, shape⟩ := d
  cases shape <;> simp [typeDef, shape, hg, hfield, harm]

lemma map_type_eq_self (id : Option TypeId) : id.map g.type = id := by
  cases id <;> simp [hg]

lemma signature_eq_self (s : Signature) : g.signature s = s := by
  simp [signature, map_type_eq_self hg]

end

end Definitions

mutual

lemma expr_eq_self (hg : ∀ s, g.span s = s) (e : Expr) : g.expr e = e := by
  match e with
  | .absent | .foreign _ => rfl
  | .literal _ _ | .var _ _ => rw [expr, hg]
  | .field e _ _ | .deref e _ | .borrow e _ _ => rw [expr, expr_eq_self hg e, hg]
  | .call _ args _ | .construct _ _ args _ => rw [expr, exprs_eq_self hg args, hg]
  | .binary _ l r _ => rw [expr, expr_eq_self hg l, expr_eq_self hg r, hg]

lemma exprs_eq_self (hg : ∀ s, g.span s = s) (es : List Expr) : g.exprs es = es := by
  match es with
  | [] => rfl
  | e :: rest => rw [exprs, expr_eq_self hg e, exprs_eq_self hg rest]

end

/-! ### Inferred types -/

@[simp] lemma ofOption_map (id : Option TypeId) :
    Ty.ofOption (id.map g.type) = g.ty (.ofOption id) := by
  cases id <;> rfl

@[simp] lemma isLocalRef_ty (ty : Ty) : (g.ty ty).isLocalRef = ty.isLocalRef := by
  cases ty <;> rfl

lemma ty_eq_unknown_iff {ty : Ty} : g.ty ty = .unknown ↔ ty = .unknown := by
  cases ty <;> simp [Guise.ty]

/-! ### Tables -/

/-- The second table is the first one in the guise. -/
structure OnTable (g : Guise) (t t' : TypeTable) : Prop where
  get? : ∀ id, t'.get? (g.type id) = (t.get? id).map g.typeDef
  /-- A number without a type stays what it is. -/
  fixed : ∀ id, t.get? id = none → g.type id = id
  lookup : ∀ name, t'.lookup name = (t.lookup name).map g.type
  size : t'.size = t.size
  copies? : ∀ id, t'.copies? (some (g.type id)) = t.copies? (some id)

namespace OnTable

variable {t t' : TypeTable}

/-- Whether a type is copied follows from the definitions, if the tables remember nothing else. -/
lemma classifyAnew (hget : ∀ id, t'.get? (g.type id) = (t.get? id).map g.typeDef)
    (hfixed : ∀ id, t.get? id = none → g.type id = id) (budget : Nat) (path : List TypeId)
    (id : TypeId) :
    t'.classifyAnew budget (path.map g.type) (g.type id) = t.classifyAnew budget path id := by
  have hmem : ∀ (path : List TypeId) (id : TypeId), g.type id ∈ path.map g.type ↔ id ∈ path := by
    intro path id
    exact mem_map_of_injective g.type.injective
  have hcycle : ∀ (path : List TypeId) (id : TypeId),
      t'.cycleNames (path.map g.type) (g.type id) = t.cycleNames path id := by
    intro path id
    simp only [TypeTable.cycleNames, dropWhile_map, filterMap_map,
      Function.comp_def, ne_eq,
      EmbeddingLike.apply_eq_iff_eq, hget, Option.map_map, name_typeDef]
  induction budget generalizing path id with
  | zero => rfl
  | succ budget ih =>
    have hfields : ∀ fields : List FieldDecl,
        TypeTable.allCopied (t'.classifyAnew budget (path.map g.type ++ [g.type id]))
          (fields.map g.field) =
          TypeTable.allCopied (t.classifyAnew budget (path ++ [id])) fields := by
      intro fields
      induction fields with
      | nil => rfl
      | cons f fields ihf =>
        have hone := ih (path ++ [id]) f.type
        rw [map_append, map_singleton] at hone
        rw [map_cons, TypeTable.allCopied, TypeTable.allCopied, ihf]
        simp only [Guise.field, hone]
    rw [TypeTable.classifyAnew, TypeTable.classifyAnew, hget]
    cases hd : t.get? id with
    | none => simp only [Option.map_none, hfixed id hd]
    | some d =>
      simp only [Option.map_some, copyRule_typeDef]
      cases d.copyRule with
      | settled copy => rfl
      | fields fields => simp only [copyRule, hmem, hcycle, hfields, name_typeDef]

lemma self (hg : ∀ id, g.type id = id) (t : TypeTable) : g.OnTable t t where
  get? id := by
    rw [hg]
    cases t.get? id <;> simp [typeDef_eq_self _ hg]
  fixed id _ := hg id
  lookup name := (map_type_eq_self hg _).symm
  size := rfl
  copies? id := by rw [hg]

lemma of_faithful (hget : ∀ id, t'.get? (g.type id) = (t.get? id).map g.typeDef)
    (hfixed : ∀ id, t.get? id = none → g.type id = id)
    (hlookup : ∀ name, t'.lookup name = (t.lookup name).map g.type) (hsize : t'.size = t.size)
    (h : t.Faithful) (h' : t'.Faithful) : g.OnTable t t' := by
  refine ⟨hget, hfixed, hlookup, hsize, fun id => ?_⟩
  rw [h.copies?_eq, h'.copies?_eq, hsize]
  exact classifyAnew hget hfixed (t.size + 1) [] id

variable (h : g.OnTable t t')

include h

lemma get (id : TypeId) : t'.get (g.type id) = g.typeDef <$> t.get id := by
  rw [TypeTable.get, TypeTable.get, h.get?]
  cases hd : t.get? id with
  | none => exact congrArg (Except.error ∘ missingType) (h.fixed id hd)
  | some d => rfl

lemma tyIsCopy (ty : Ty) : t'.tyIsCopy (g.ty ty) = t.tyIsCopy ty := by
  cases ty with
  | named id => exact h.copies? id
  | _ => rfl

lemma tyIsRef (ty : Ty) : t'.tyIsRef (g.ty ty) = t.tyIsRef ty := by
  cases ty with
  | named id =>
    rw [Guise.ty, TypeTable.tyIsRef, TypeTable.tyIsRef, h.get]
    cases t.get id with
    | error fault => rfl
    | ok d => exact congrArg Except.ok (isRef_typeDef d)
  | _ => rfl

lemma tyIsMutRef (ty : Ty) : t'.tyIsMutRef (g.ty ty) = t.tyIsMutRef ty := by
  cases ty with
  | named id =>
    rw [Guise.ty, TypeTable.tyIsMutRef, TypeTable.tyIsMutRef, h.get]
    cases t.get id with
    | error fault => rfl
    | ok d => exact congrArg Except.ok (isMutRef_typeDef d)
  | _ => rfl

lemma tyPointee (ty : Ty) : t'.tyPointee (g.ty ty) = g.ty <$> t.tyPointee ty := by
  cases ty with
  | named id =>
    rw [Guise.ty, TypeTable.tyPointee, TypeTable.tyPointee, TypeTable.pointee,
      TypeTable.pointee, h.get]
    cases t.get id with
    | error fault => rfl
    | ok d =>
      refine congrArg Except.ok ?_
      dsimp only
      rw [pointee?_typeDef, ofOption_map]
  | _ => rfl

lemma describeTy (ty : Ty) : t'.describeTy (g.ty ty) = t.describeTy ty := by
  induction ty with
  | unknown => rfl
  | named id =>
    rw [Guise.ty, TypeTable.describeTy, TypeTable.describeTy, TypeTable.nameOf,
      TypeTable.nameOf, h.get]
    cases t.get id <;> rfl
  | ref inner mutable ih => rw [Guise.ty, TypeTable.describeTy, TypeTable.describeTy, ih]

lemma aggregateFrom (kind : TypeTable.AggregateKind) (steps : Nat) (id : TypeId) :
    t'.aggregateFrom kind steps (g.type id) =
      Option.map g.typeDef <$> t.aggregateFrom kind steps id := by
  induction steps generalizing id with
  | zero => rfl
  | succ steps ih =>
    rw [TypeTable.aggregateFrom, TypeTable.aggregateFrom, h.get]
    refine bind_map fun d => ?_
    have hkind : kind.holds (g.typeDef d) = kind.holds d := by
      cases kind <;> simp [TypeTable.AggregateKind.holds]
    rw [hkind, pointee?_typeDef]
    split
    · rfl
    · cases d.pointee? with
      | none => rfl
      | some inner => exact ih inner

lemma aggregate? (kind : TypeTable.AggregateKind) (ty : Ty) :
    t'.aggregate? kind (g.ty ty) = Option.map g.typeDef <$> t.aggregate? kind ty := by
  induction ty with
  | unknown => rfl
  | named id => rw [Guise.ty, TypeTable.aggregate?, TypeTable.aggregate?, h.size, h.aggregateFrom]
  | ref inner mutable ih => exact ih

lemma tyField (ty : Ty) (name : String) :
    t'.tyField (g.ty ty) name = g.ty <$> t.tyField ty name := by
  rw [TypeTable.tyField, TypeTable.tyField, h.aggregate?]
  refine bind_map fun d? => ?_
  cases d? with
  | none => rfl
  | some d =>
    refine congrArg Except.ok ?_
    rw [← ofOption_map, field?_typeDef, Option.map_map, Option.map_map]
    rfl

lemma modeOf (id : Option TypeId) : t'.modeOf (id.map g.type) = t.modeOf id := by
  cases id with
  | none => rfl
  | some id =>
    rw [Option.map_some, TypeTable.modeOf, TypeTable.modeOf, h.get]
    cases t.get id with
    | error fault => rfl
    | ok d =>
      refine congrArg Except.ok ?_
      rw [isRef_typeDef, isMutRef_typeDef]

end OnTable

/-- The second program is the first one in the guise, as far as the analysis of a function can
see. -/
structure OnProgram (g : Guise) (p p' : Program) : Prop where
  types : g.OnTable p.types p'.types
  signature? : ∀ callee, p'.signature? callee = Option.map g.signature <$> p.signature? callee

lemma OnProgram.of_functions {p p' : Program} (htypes : g.OnTable p.types p'.types)
    (hfunctions : p'.functions = p.functions.map g.function)
    (hexterns : ∀ callee, p'.externs.get? callee = (p.externs.get? callee).map g.signature) :
    g.OnProgram p p' := by
  refine ⟨htypes, fun callee => ?_⟩
  have hmodes : ∀ ps : List Param, (ps.map g.param).mapM (fun param => p'.types.modeOf param.type) =
      ps.mapM fun param => p.types.modeOf param.type := by
    intro ps
    rw [mapM_map]
    exact congrArg (mapM · ps) (funext fun param => htypes.modeOf param.type)
  rw [Program.signature?, Program.signature?, hexterns]
  cases p.externs.get? callee with
  | some sig => rfl
  | none =>
    have hfind : p'.function? callee = (p.function? callee).map g.function := by
      rw [Program.function?, Program.function?, hfunctions, find?_map]
      rfl
    rw [hfind]
    cases p.function? callee with
    | none => rfl
    | some f =>
      simp only [Option.map_none, Option.map_some, Program.signatureOf, function, hmodes]
      cases f.params.mapM fun param => p.types.modeOf param.type <;> rfl

/-! ### Typings -/

variable (g) in
/-- The types of bindings in the guise, in another program. -/
def typing (q : Program) (m : Typing) : Typing where
  program := q
  bindings := m.bindings.relabel id Function.injective_id g.ty

section Typings

variable {m : Typing} {q : Program} {meaning meaning' : String → Option Binding}

lemma bindingType_typing (b : Binding) :
    (g.typing q m).bindingType (g.binding b) = g.ty (m.bindingType b) := by
  have hget := Registry.get?_relabel Function.injective_id g.ty m.bindings b.index
  rw [id_eq] at hget
  rw [Typing.bindingType, Typing.bindingType, show (g.binding b).index = b.index from rfl,
    typing, hget]
  cases m.bindings.get? b.index <;> rfl

variable (h : g.OnProgram m.program q)

include h

lemma onTable : g.OnTable m.table (g.typing q m).table := h.types

lemma followPath_typing (path : List Projection) (ty : Ty) :
    (g.typing q m).followPath (g.ty ty) path = g.ty <$> m.followPath ty path := by
  induction path generalizing ty with
  | nil => rfl
  | cons step rest ih =>
    cases step with
    | deref =>
      have hpointee := (onTable h).tyPointee ty
      cases ty with
      | unknown => rfl
      | _ =>
        simp only [Guise.ty, Typing.followPath] at hpointee ⊢
        rw [hpointee]
        exact bind_map ih
    | field name =>
      have hfield := (onTable h).tyField ty name
      cases ty with
      | unknown => rfl
      | _ =>
        simp only [Guise.ty, Typing.followPath] at hfield ⊢
        rw [hfield]
        exact bind_map ih

lemma placeType_typing (p : Place) :
    (g.typing q m).placeType (g.place p) = g.ty <$> m.placeType p := by
  rw [Typing.placeType, Typing.placeType, base_place, path_place, bindingType_typing]
  exact followPath_typing h p.path _

lemma literalType_typing (value : Literal) :
    (g.typing q m).literalType value = g.ty (m.literalType value) := by
  cases value with
  | other => rfl
  | _ => simp only [Typing.literalType, (onTable h).lookup, ofOption_map]

/-- An expression in the guise has its type in the guise. -/
lemma exprType_typing (hmeaning : ∀ name, meaning' name = (meaning name).map g.binding) (e : Expr) :
    (g.typing q m).exprType meaning' (g.expr e) = g.ty <$> m.exprType meaning e := by
  -- A place has the type of its path; other expressions go by their parts.
  have hplace : ∀ e : Expr, (g.expr e).place? meaning' = (e.place? meaning).map g.place :=
    place?_expr hmeaning
  match e with
  | .absent | .foreign _ => rfl
  | .literal value _ => exact congrArg Except.ok (literalType_typing h value)
  | .var name loc =>
    have hvar := hplace (.var name loc)
    rw [expr] at hvar
    rw [expr, Typing.exprType, Typing.exprType, hvar]
    cases (Expr.var name loc).place? meaning with
    | none => rfl
    | some p => exact placeType_typing h p
  | .field e name loc =>
    have hfield := hplace (.field e name loc)
    rw [expr] at hfield
    rw [expr, Typing.exprType, Typing.exprType, hfield, exprType_typing hmeaning e]
    cases (Expr.field e name loc).place? meaning with
    | none => exact bind_map fun ty => (onTable h).tyField ty name
    | some p => exact placeType_typing h p
  | .deref e loc =>
    have hderef := hplace (.deref e loc)
    rw [expr] at hderef
    rw [expr, Typing.exprType, Typing.exprType, hderef, exprType_typing hmeaning e]
    cases (Expr.deref e loc).place? meaning with
    | none => exact bind_map (onTable h).tyPointee
    | some p => exact placeType_typing h p
  | .borrow e mutable _ =>
    rw [expr, Typing.exprType, Typing.exprType, exprType_typing hmeaning e]
    exact bind_map fun ty => rfl
  | .call callee args _ =>
    rw [expr, Typing.exprType, Typing.exprType, typing, h.signature?]
    refine bind_map fun sig => ?_
    cases sig with
    | none => rfl
    | some sig => exact congrArg Except.ok (ofOption_map sig.returnType)
  | .construct typeName variant args _ =>
    rw [expr, Typing.exprType, Typing.exprType, (onTable h).lookup, ofOption_map]
    rfl
  | .binary op left right _ =>
    rw [expr, Typing.exprType, Typing.exprType, (onTable h).lookup, ofOption_map,
      exprType_typing hmeaning left]
    cases op.isTest <;> rfl

lemma lastRef?_typing (ps : List Place) :
    (g.typing q m).lastRef? (ps.map g.place) = Option.map g.place <$> m.lastRef? ps := by
  induction ps with
  | nil => rfl
  | cons p rest ih =>
    rw [map_cons, Typing.lastRef?, Typing.lastRef?, placeType_typing h, ih]
    refine bind_map fun ty => ?_
    rw [(onTable h).tyIsRef]
    refine bind_same fun here => bind_map fun later => congrArg Except.ok ?_
    cases later <;> cases here <;> rfl

lemma refPrefix?_typing (p : Place) :
    (g.typing q m).refPrefix? (g.place p) = Option.map g.place <$> m.refPrefix? p := by
  rw [Typing.refPrefix?, Typing.refPrefix?, strictPrefixes_place, lastRef?_typing h]

lemma scrutineeType_typing (hmeaning : ∀ name, meaning' name = (meaning name).map g.binding)
    (e : Expr) (stated : Option TypeId) :
    (g.typing q m).scrutineeType meaning' (g.expr e) (stated.map g.type) =
      g.ty <$> m.scrutineeType meaning e stated := by
  cases stated with
  | none => exact exprType_typing h hmeaning e
  | some id => rfl

lemma binderTypes_typing (ty : Ty) (a : Arm) :
    (g.typing q m).binderTypes (g.ty ty) (g.arm a) = map g.ty <$> m.binderTypes ty a := by
  rw [Typing.binderTypes, Typing.binderTypes, (onTable h).aggregate?, (onTable h).tyIsRef,
    (onTable h).tyIsMutRef]
  refine bind_map fun d? => bind_same fun isRef => bind_same fun isMutRef => ?_
  have hfields : Typing.armFields (d?.map g.typeDef) a.variant =
      (Typing.armFields d? a.variant).map g.field := by
    cases d? with
    | none => rfl
    | some d =>
      cases a.variant with
      | none => rfl
      | some name =>
        simp only [Option.map_some, Typing.armFields, arm?_typeDef, Option.map_map]
        cases d.arm? name <;> rfl
  refine congrArg Except.ok ?_
  rw [map_map, variant_arm, binders_arm, byRef_arm, hfields]
  refine map_congr_left fun i _ => ?_
  have htype : Ty.ofOption (((Typing.armFields d? a.variant).map g.field)[i]?.map FieldDecl.type) =
      g.ty (.ofOption ((Typing.armFields d? a.variant)[i]?.map FieldDecl.type)) := by
    rw [← ofOption_map, getElem?_map, Option.map_map, Option.map_map]
    rfl
  simp only [Function.comp_apply, htype, apply_ite g.ty]
  rfl

end Typings

lemma namedTypes_arm (a : Arm) (types : List Ty) :
    Typing.namedTypes (g.arm a) (types.map g.ty) = (Typing.namedTypes a types).map g.ty := by
  simp only [Typing.namedTypes, binders_arm, zip_map_right, filter_map, map_map,
    Function.comp_def, Prod.map_fst, Prod.map_snd, id_eq]

/-! ### Computing the types of bindings -/

section Reading

variable {m : Typing} {p q : Program} {t : ScopeTree}

lemma assign_typing (b : Binding) (ty : Ty) :
    (g.typing q m).assign (g.binding b) (g.ty ty) = g.typing q (m.assign b ty) := by
  have hinsert := Registry.insert_relabel Function.injective_id g.ty m.bindings b.index ty
  simp only [Typing.assign, typing, id_eq] at hinsert ⊢
  rw [← hinsert]
  rfl

lemma foldl_assign_typing (bs : List Binding) (ty : Ty) :
    (bs.map g.binding).foldl (fun m b => m.assign b (g.ty ty)) (g.typing q m) =
      g.typing q (bs.foldl (fun m b => m.assign b ty) m) := by
  induction bs generalizing m with
  | nil => rfl
  | cons b bs ih => rw [map_cons, foldl_cons, foldl_cons, assign_typing, ih]

lemma foldl_assign_typing_zip (bs : List Binding) (types : List Ty) :
    ((bs.map g.binding).zip (types.map g.ty)).foldl (fun m (b, ty) => m.assign b ty)
    (g.typing q m) =
      g.typing q ((bs.zip types).foldl (fun m (b, ty) => m.assign b ty) m) := by
  induction bs generalizing types m with
  | nil => rfl
  | cons b bs ih =>
    cases types with
    | nil => rfl
    | cons ty types =>
      simp only [map_cons, zip_cons_cons, foldl_cons]
      rw [assign_typing, ih]

lemma readEvent_typing (h : g.OnProgram m.program q) (e : Event) :
    (g.typing q m).readEvent (g.tree t) (g.event e) = g.typing q <$> m.readEvent t e := by
  obtain ⟨kind, label, pos, node, scopeKind⟩ := e
  have hmeaning :
      ∀ label name, (g.tree t).resolve label name = (t.resolve label name).map g.binding :=
    fun label name => resolve_tree label name
  cases kind with
  | enter => cases node <;> rfl
  | exit => cases node <;> rfl
  | step =>
    cases node with
    | function => rfl
    | param p =>
      refine congrArg Except.ok ?_
      simp only [event, Guise.param, declaredBy_tree, ofOption_map]
      exact foldl_assign_typing _ _
    | arm a sel =>
      cases sel with
      | none => rfl
      | some sel =>
        simp only [event, Guise.node, Option.map_some, Typing.readEvent, selection, declaredBy_tree]
        rw [scrutineeType_typing h (hmeaning sel.label)]
        refine bind_map fun ty => ?_
        rw [binderTypes_typing h]
        refine bind_map fun types => congrArg Except.ok ?_
        rw [namedTypes_arm, foldl_assign_typing_zip]
    | stmt s =>
      cases s with
      | declare name type value mutable loc =>
        simp only [event, Guise.node, stmt, Typing.readEvent, declaredBy_tree]
        cases type with
        | some id => exact congrArg Except.ok (foldl_assign_typing _ (.named id))
        | none =>
          simp only [Option.map_none]
          rw [exprType_typing h (hmeaning label)]
          exact bind_map fun ty => congrArg Except.ok (foldl_assign_typing _ ty)
      | _ => rfl

lemma readEvents_typing (h : g.OnProgram m.program q) (es : List Event) :
    (g.typing q m).readEvents (g.tree t) (es.map g.event) = g.typing q <$> m.readEvents t es := by
  induction es generalizing m with
  | nil => rfl
  | cons e es ih =>
    rw [map_cons, Typing.readEvents, Typing.readEvents, readEvent_typing h]
    cases hm : m.readEvent t e with
    | error fault => rfl
    | ok m' => exact ih (by rwa [Typing.program_readEvent hm])

theorem ofTree_tree (h : g.OnProgram p q) (t : ScopeTree) :
    Typing.ofTree q (g.tree t) = g.typing q <$> Typing.ofTree p t :=
  readEvents_typing (m := { program := p }) h t.events

end Reading

end Guise

end Ownership
