import Ownership.Proofs.Moves.States
import Ownership.Proofs.Types.Alike

/-!
# The equations of types

The types of the bindings of a function are computed once, in the order of the text. Each binding
is given its type exactly once, and nothing that is given later changes a type that was used
before: the finished typing solves all equations between the types of bindings and of expressions
at once.
-/

namespace Ownership

open List

namespace Typing

variable {tree : ScopeTree} {g g' : Typing} {e : Event} {es : List Event}
  {meaning : String → Option Binding} {as : List (Binding × Ty)} {r : Registry Nat Ty}
  {types : List Ty}

/-! ### What one event gives -/

/-- The types that an event gives to bindings when its turn comes. -/
def given (tree : ScopeTree) (g : Typing) (e : Event) : Except Fault (List (Binding × Ty)) :=
  match e.kind, e.node with
  | .step, .param p => .ok ((tree.declaredBy e.label).map fun b => (b, .ofOption p.type))
  | .step, .stmt (.declare _ (some id) _ _ _) =>
    .ok ((tree.declaredBy e.label).map fun b => (b, .named id))
  | .step, .stmt (.declare _ none value _ _) => do
    let ty ← g.exprType (tree.resolve e.label) value
    return (tree.declaredBy e.label).map fun b => (b, ty)
  | .step, .arm a (some sel) => do
    let scrutinee ← g.scrutineeType (tree.resolve sel.label) sel.scrutinee sel.type
    let types ← g.binderTypes scrutinee a
    return (tree.declaredBy e.label).zip (namedTypes a types)
  | _, _ => .ok []

/-- Gives types to bindings one after another. -/
def assignAll (g : Typing) (as : List (Binding × Ty)) : Typing :=
  as.foldl (fun g a => g.assign a.1 a.2) g

lemma assignAll_append (g : Typing) (as bs : List (Binding × Ty)) :
    g.assignAll (as ++ bs) = (g.assignAll as).assignAll bs := foldl_append

lemma foldl_assign_eq (g : Typing) (bs : List Binding) (ty : Ty) :
    bs.foldl (fun g b => g.assign b ty) g = g.assignAll (bs.map fun b => (b, ty)) := by
  rw [assignAll, foldl_map]

/-- An event assigns the types that it gives. -/
lemma readEvent_eq (tree : ScopeTree) (g : Typing) (e : Event) :
    g.readEvent tree e = g.assignAll <$> g.given tree e := by
  unfold readEvent given
  split
  · rename_i p hk hn
    rw [hk, hn]
    exact congrArg Except.ok (foldl_assign_eq ..)
  · rename_i type value mutable loc hk hn
    cases type with
    | some id =>
      rw [hk, hn]
      exact congrArg Except.ok (foldl_assign_eq ..)
    | none =>
      rw [hk, hn]
      simp only [foldl_assign_eq]
      cases g.exprType (tree.resolve e.label) value <;> rfl
  · rename_i a sel hk hn
    rw [hk, hn]
    dsimp only
    cases g.scrutineeType (tree.resolve sel.label) sel.scrutinee sel.type with
    | error fault => rfl
    | ok scrutinee =>
      simp only [bind, Except.bind]
      cases g.binderTypes scrutinee a <;> rfl
  · rename_i hparam hdeclare harm
    split
    · exact (hparam _ ‹_› ‹_›).elim
    · exact (hdeclare _ _ _ _ _ ‹_› ‹_›).elim
    · exact (hdeclare _ _ _ _ _ ‹_› ‹_›).elim
    · exact (harm _ _ ‹_› ‹_›).elim
    · rfl

/-! ### What a pass gives -/

/-- All types that reading a stream gives to bindings, in order. -/
def assignments (tree : ScopeTree) (g : Typing) : List Event → List (Binding × Ty)
  | [] => []
  | e :: rest => Fault.seen (g.given tree e) fun as => as ++ (g.assignAll as).assignments tree rest

lemma readEvents_append (fs : List Event) :
    g.readEvents tree (es ++ fs) = g.readEvents tree es >>= fun g => g.readEvents tree fs := by
  induction es generalizing g with
  | nil => rfl
  | cons e es ih =>
    rw [cons_append, readEvents, readEvents, bind_assoc]
    exact bind_congr fun m => ih

lemma readEvents_eq (h : g.readEvents tree es = .ok g') :
    g' = g.assignAll (g.assignments tree es) := by
  induction es generalizing g with
  | nil => exact (Except.ok.inj h).symm
  | cons e es ih =>
    obtain ⟨m, hm, h⟩ := bind_eq_ok.mp h
    rw [readEvent_eq] at hm
    obtain ⟨as, has, rfl⟩ := map_eq_ok.mp hm
    rw [assignments, has, Fault.seen_ok, assignAll_append]
    exact ih h

lemma assignments_append {fs : List Event} (h : g.readEvents tree es = .ok g') :
    g.assignments tree (es ++ fs) = g.assignments tree es ++ g'.assignments tree fs := by
  induction es generalizing g with
  | nil =>
    cases h
    rfl
  | cons e es ih =>
    obtain ⟨m, hm, h⟩ := bind_eq_ok.mp h
    rw [readEvent_eq] at hm
    obtain ⟨as, has, rfl⟩ := map_eq_ok.mp hm
    rw [cons_append, assignments, assignments, has, Fault.seen_ok, Fault.seen_ok, ih h,
      append_assoc]

lemma get?_assignAll_of_ne {i : Nat} (h : ∀ a ∈ as, a.1.index ≠ i) :
    (g.assignAll as).bindings.get? i = g.bindings.get? i := by
  induction as generalizing g with
  | nil => rfl
  | cons a as ih =>
    obtain ⟨ha, has⟩ := forall_mem_cons.mp h
    rw [assignAll, foldl_cons]
    exact (ih has).trans (Registry.get?_insert_of_ne _ _ ha.symm)

lemma get?_assignAll (h : as.Pairwise fun a a' => a.1.index ≠ a'.1.index) {a : Binding × Ty}
    (ha : a ∈ as) : (g.assignAll as).bindings.get? a.1.index = some a.2 := by
  obtain ⟨before, after, rfl⟩ := append_of_mem ha
  obtain ⟨hafter, -⟩ := pairwise_cons.mp (pairwise_append.mp h).2.1
  rw [assignAll_append, assignAll, foldl_cons]
  refine (get?_assignAll_of_ne fun a' ha' => (hafter a' ha').symm).trans ?_
  exact Registry.get?_insert_self _ _ _

/-! ### Expressions -/

/-- The same program with other types of bindings. -/
def withBindings (g : Typing) (r : Registry Nat Ty) : Typing := { g with bindings := r }

lemma followPath_withBindings (r : Registry Nat Ty) (ty : Ty) (path : List Projection) :
    (g.withBindings r).followPath ty path = g.followPath ty path := by
  induction path generalizing ty with
  | nil => rfl
  | cons step rest ih =>
    rw [followPath.eq_def, followPath.eq_def g]
    dsimp only
    split
    · rfl
    · exact bind_congr fun _ => ih _
    · exact bind_congr fun _ => ih _

lemma placeType_withBindings {p : Place} (h : r.get? p.base.index = g.bindings.get? p.base.index) :
    (g.withBindings r).placeType p = g.placeType p := by
  rw [placeType, placeType, bindingType, bindingType, followPath_withBindings]
  exact congrArg (fun ty? => g.followPath (Option.getD ty? .unknown) p.path) h

/-- The type of an expression depends on the bindings that its variables mean. -/
theorem exprType_withBindings (expr : Expr)
    (h : ∀ name ∈ expr.vars, ∀ x, meaning name = some x →
      r.get? x.index = g.bindings.get? x.index) :
    (g.withBindings r).exprType meaning expr = g.exprType meaning expr := by
  have hplace : ∀ {e : Expr} {p : Place}, (∀ name ∈ e.vars, ∀ x, meaning name = some x →
      r.get? x.index = g.bindings.get? x.index) → e.place? meaning = some p →
      (g.withBindings r).placeType p = g.placeType p := by
    intro e p he hp
    obtain ⟨name, hname, hx⟩ := Expr.exists_name_of_place? hp
    exact placeType_withBindings (he name hname p.base hx)
  match expr with
  | .absent | .literal _ _ | .call _ _ _ | .construct _ _ _ _ | .foreign _ => rfl
  | .var name l =>
    rw [exprType, exprType]
    split
    · rename_i p hp
      exact hplace h hp
    · rfl
  | .field e name l | .deref e l =>
    rw [exprType, exprType]
    split
    · rename_i p hp
      exact hplace h hp
    · rw [exprType_withBindings e h]
      rfl
  | .borrow e mutable l => rw [exprType, exprType, exprType_withBindings e h]
  | .binary op left right l =>
    have hleft := exprType_withBindings left fun name hname => h name (mem_append_left _ hname)
    rw [exprType, exprType, hleft]
    rfl

/-! ### The equations -/

/-- Whether a typing solves the equation of an event: its bindings have, by name, the types that the
event says, where expressions have the types that this typing gives them. -/
def Solves (g : Typing) (tree : ScopeTree) (e : Event) : Prop :=
  let types := (tree.declaredBy e.label).map fun b => (b.name, g.bindings.get? b.index)
  match e.kind, e.node with
  | .step, .param p => types = [(p.name, some (.ofOption p.type))]
  | .step, .stmt (.declare name (some id) _ _ _) => types = [(name, some (.named id))]
  | .step, .stmt (.declare name none value _ _) =>
    ∃ ty, g.exprType (tree.resolve e.label) value = .ok ty ∧ types = [(name, some ty)]
  | .step, .arm a (some sel) =>
    ∃ scrutinee binderTypes,
      g.scrutineeType (tree.resolve sel.label) sel.scrutinee sel.type = .ok scrutinee ∧
      g.binderTypes scrutinee a = .ok binderTypes ∧ binderTypes.length = a.binders.length ∧
      types = ((a.binders.zip binderTypes).filter (·.1 ≠ "_")).map fun b => (b.1, some b.2)
  | _, _ => True

lemma length_binderTypes {scrutinee : Ty} {a : Arm} (h : g.binderTypes scrutinee a = .ok types) :
    types.length = a.binders.length := by
  obtain ⟨d?, -, h⟩ := bind_eq_ok.mp h
  obtain ⟨isRef, -, h⟩ := bind_eq_ok.mp h
  obtain ⟨isMutRef, -, h⟩ := bind_eq_ok.mp h
  rw [← Except.ok.inj h, length_map, length_range]

lemma map_zip_of_names {bs : List Binding} {pairs : List (String × Ty)}
    (h : bs.map (·.name) = pairs.map Prod.fst) :
    (bs.zip (pairs.map Prod.snd)).map (fun a => (a.1.name, some a.2)) =
      pairs.map fun p => (p.1, some p.2) := by
  induction pairs generalizing bs with
  | nil => simp
  | cons p pairs ih =>
    obtain ⟨b, bs, rfl, hb, hbs⟩ := map_eq_cons_iff.mp h
    simp [hb, ih hbs]

lemma map_fst_filter_zip (names : List String) (h : types.length = names.length) :
    ((names.zip types).filter (·.1 ≠ "_")).map Prod.fst = names.filter (· ≠ "_") := by
  have hnames : (names.zip types).map Prod.fst = names := map_fst_zip h.ge
  conv_rhs => rw [← hnames, filter_map]
  rfl

end Typing

lemma Function.mem_skeleton_of_step {f : Function} {e : Event} (he : e ∈ f.events)
    (hk : e.kind = .step) (hn : ∀ p, e.node ≠ .param p) : e ∈ f.skeleton.events := by
  rcases mem_events_cases he with rfl | he | he | rfl
  · cases hk
  · obtain ⟨x, -, hx⟩ := Param.exists_of_mem_eventsAll he
    exact (hn x hx).elim
  · exact he
  · cases hk

lemma Function.exists_selection_of_arm {f : Function} {e : Event} (he : e ∈ f.events)
    (hk : e.kind = .step) {a : Arm} {sel : Option Selection} (hn : e.node = .arm a sel) :
    ∃ q, sel = some q := by
  have hbody := f.mem_skeleton_of_step he hk (by simp [hn])
  have hof := Stmt.of_eventsAll f.bodyStart f.body.stmts e (f.events_skeleton ▸ hbody) hk
  rw [hn] at hof
  obtain ⟨q, hq, -⟩ := hof
  exact ⟨q, hq⟩

namespace ScopeTree

variable {es : List Event} {t : ScopeTree} {e : Event}

def introducedBy (t : ScopeTree) (e : Event) : List Binding :=
  if e.kind = .step then t.declaredBy e.label else []

namespace Nests

variable (h : t.Nests es)

include h

lemma declaredAt_of_introducedBy (he : e ∈ es) {x : Binding} (hx : x ∈ t.introducedBy e) :
    x ∈ t.bindings ∧ x.declaredAt = e.pos := by
  unfold introducedBy at hx
  split at hx
  · rename_i hk
    rw [h.numbered.labelled e he (by simp [hk])] at hx
    exact (h.mem_declaredBy_iff he hk).mp hx
  · cases hx

lemma pairwise_introducedBy :
    (es.flatMap t.introducedBy).Pairwise fun x y => x.index ≠ y.index := by
  rw [pairwise_flatMap]
  constructor
  · intro e he
    unfold introducedBy
    split
    · rename_i hk
      obtain ⟨scope, index, hd⟩ := h.declares e he hk
      rw [hd]
      exact (ScopeBuilder.ascending_numbered ..).imp Nat.ne_of_lt
    · exact .nil
  · refine h.numbered.ascending.imp_of_mem fun he he' hlt x hx y hy hxy => ?_
    obtain ⟨hxt, hxpos⟩ := h.declaredAt_of_introducedBy he hx
    obtain ⟨hyt, hypos⟩ := h.declaredAt_of_introducedBy he' hy
    rw [h.eq_of_index hxt hyt hxy] at hxpos
    omega

lemma mem_introducedBy_iff {x : Binding} : x ∈ es.flatMap t.introducedBy ↔ x ∈ t.bindings := by
  rw [mem_flatMap]
  constructor
  · rintro ⟨e, he, hx⟩
    exact (h.declaredAt_of_introducedBy he hx).1
  · intro hx
    obtain ⟨e, he, hk, -, hlabel⟩ := h.declared x hx
    refine ⟨e, he, ?_⟩
    rw [introducedBy, if_pos hk]
    exact mem_filter.mpr ⟨hx, decide_eq_true hlabel.symm⟩

end Nests

end ScopeTree

namespace Typing

variable {f : Function} {t : ScopeTree} {g g' : Typing} {e : Event} {es : List Event}
  {as : List (Binding × Ty)}

lemma length_namedTypes {scrutinee : Ty} {a : Arm} {types : List Ty}
    (h : g.binderTypes scrutinee a = .ok types) : (namedTypes a types).length = a.named.length := by
  rw [Arm.named, ← map_fst_filter_zip a.binders (length_binderTypes h), namedTypes, length_map,
    length_map]

/-- An event gives types to just the bindings that it introduces. -/
lemma map_fst_given (hnests : t.Nests f.events) (he : e ∈ f.events) (h : g.given t e = .ok as) :
    as.map Prod.fst = t.introducedBy e := by
  have hall : ∀ (bs : List Binding) (ty : Ty), (bs.map fun b => (b, ty)).map Prod.fst = bs :=
    fun bs ty => (map_map ..).trans (map_id bs)
  unfold given at h
  split at h
  · rename_i hk hn
    rw [← Except.ok.inj h, hall, ScopeTree.introducedBy, if_pos hk]
  · rename_i hk hn
    rw [← Except.ok.inj h, hall, ScopeTree.introducedBy, if_pos hk]
  · rename_i hk hn
    obtain ⟨ty, -, h⟩ := bind_eq_ok.mp h
    rw [← Except.ok.inj h, hall, ScopeTree.introducedBy, if_pos hk]
  · rename_i a sel hk hn
    obtain ⟨scrutinee, -, h⟩ := bind_eq_ok.mp h
    obtain ⟨types, htypes, h⟩ := bind_eq_ok.mp h
    have hnamed : (t.declaredBy e.label).length = a.named.length := by
      rw [← hnests.declaredBy_arm he hk hn, length_map]
    rw [← Except.ok.inj h, ScopeTree.introducedBy, if_pos hk]
    exact map_fst_zip (hnamed.trans (length_namedTypes htypes).symm).le
  · rename_i hparam hdeclared hdeclare harm
    rw [← Except.ok.inj h, ScopeTree.introducedBy]
    split
    · rename_i hk
      -- No other node declares anything.
      have hnone : e.node.declarations = [] := by
        cases hn : e.node with
        | function => rfl
        | param p => exact (hparam p hk hn).elim
        | arm a sel =>
          obtain ⟨q, rfl⟩ := Function.exists_selection_of_arm he hk hn
          exact (harm a q hk hn).elim
        | stmt stmt =>
          cases stmt with
          | declare name type value mutable loc =>
            cases type with
            | none => exact (hdeclare _ _ _ _ hk hn).elim
            | some id => exact (hdeclared _ _ _ _ _ hk hn).elim
          | _ => rfl
      obtain ⟨scope, index, hd⟩ := hnests.declares e he hk
      rw [hd, hnone]
      rfl
    · rfl

lemma map_fst_assignments (hnests : t.Nests f.events) (hes : ∀ e ∈ es, e ∈ f.events)
    (h : g.readEvents t es = .ok g') :
    (g.assignments t es).map Prod.fst = es.flatMap t.introducedBy := by
  induction es generalizing g with
  | nil => rfl
  | cons e es ih =>
    obtain ⟨he, hes⟩ := forall_mem_cons.mp hes
    obtain ⟨m, hm, h⟩ := bind_eq_ok.mp h
    rw [readEvent_eq] at hm
    obtain ⟨as, has, rfl⟩ := map_eq_ok.mp hm
    rw [assignments, has, Fault.seen_ok, map_append, flatMap_cons,
      map_fst_given hnests he has,
      ih hes h]

lemma distinct_assignments (hnests : t.Nests f.events) (h : g.readEvents t f.events = .ok g') :
    (g.assignments t f.events).Pairwise fun a a' => a.1.index ≠ a'.1.index := by
  have hbindings := hnests.pairwise_introducedBy
  rwa [← map_fst_assignments hnests (fun e he => he) h, pairwise_map] at hbindings

/-- What a typing in the making has given up to an event, what the event gives, and how it goes
on. -/
lemma exists_turn (h : g.readEvents t es = .ok g') (he : e ∈ es) :
    ∃ before after m as, es = before ++ e :: after ∧ g.readEvents t before = .ok m ∧
      m.given t e = .ok as ∧ (m.assignAll as).readEvents t after = .ok g' ∧
      ∀ a ∈ as, a ∈ g.assignments t es := by
  obtain ⟨before, after, rfl⟩ := append_of_mem he
  rw [readEvents_append] at h
  obtain ⟨m, hm, h⟩ := bind_eq_ok.mp h
  obtain ⟨m', hm', h⟩ := bind_eq_ok.mp h
  rw [readEvent_eq] at hm'
  obtain ⟨as, has, rfl⟩ := map_eq_ok.mp hm'
  refine ⟨before, after, m, as, rfl, hm, has, h, fun a ha => ?_⟩
  rw [assignments_append hm, assignments, has, Fault.seen_ok]
  exact mem_append_right _ (mem_append_left _ ha)

lemma filter_index (h : as.Pairwise fun a a' => a.1.index ≠ a'.1.index) {a : Binding × Ty}
    (ha : a ∈ as) : as.filter (·.1.index = a.1.index) = [a] := by
  obtain ⟨before, after, rfl⟩ := append_of_mem ha
  obtain ⟨-, hafter, hbefore⟩ := pairwise_append.mp h
  have hfirst : before.filter (·.1.index = a.1.index) = [] :=
    filter_eq_nil_iff.mpr fun b hb => by simpa using hbefore b hb a mem_cons_self
  have hlast : after.filter (·.1.index = a.1.index) = [] :=
    filter_eq_nil_iff.mpr fun b hb => by
      simpa using ((pairwise_cons.mp hafter).1 b hb).symm
  rw [filter_append, filter_cons_of_pos (by simp), hfirst, hlast, nil_append]

end Typing

namespace Context

variable {c : Context} {program : Program} {f : Function} {options : Options} {e : Event}

/-- What the variables of an event mean was given its type before the event. -/
lemma stable_of_turn (hnests : c.tree.Nests c.function.events) {before after : List Event}
    {m : Typing} {as : List (Binding × Ty)} (hes : c.function.events = before ++ e :: after)
    (has : m.given c.tree e = .ok as)
    (hrest : (m.assignAll as).readEvents c.tree after = .ok c.typing) {x : Binding}
    (hx : c.tree.Alive e.pos x) : c.typing.bindings.get? x.index = m.bindings.get? x.index := by
  have hmem : ∀ d ∈ e :: after, d ∈ c.function.events := fun d hd => by
    rw [hes]
    exact mem_append_right _ hd
  have hlater : ∀ d ∈ e :: after, e.pos ≤ d.pos := by
    intro d hd
    have hasc := hnests.numbered.ascending
    rw [hes] at hasc
    rcases mem_cons.mp hd with rfl | hd
    · exact le_rfl
    · exact ((pairwise_cons.mp (pairwise_append.mp hasc).2.1).1 d hd).le
  -- Whatever is given from here on goes to bindings of this event or a later one.
  have hne : ∀ d ∈ e :: after, ∀ y ∈ c.tree.introducedBy d, y.index ≠ x.index := by
    intro d hd y hy hindex
    obtain ⟨hyt, hypos⟩ := hnests.declaredAt_of_introducedBy (hmem d hd) hy
    rw [hnests.eq_of_index hyt hx.mem hindex] at hypos
    have hle := hlater d hd
    have hlt := hx.earlier
    omega
  rw [Typing.readEvents_eq hrest, ← Typing.assignAll_append]
  apply Typing.get?_assignAll_of_ne
  intro a ha
  rcases mem_append.mp ha with ha | ha
  · have hfst := Typing.map_fst_given hnests (hmem e mem_cons_self) has
    exact hne e mem_cons_self a.1 (hfst ▸ mem_map_of_mem ha)
  · have hfst := Typing.map_fst_assignments hnests
      (fun d hd => hmem d (mem_cons_of_mem _ hd)) hrest
    obtain ⟨d, hd, hy⟩ := mem_flatMap.mp (hfst ▸ mem_map_of_mem (f := Prod.fst) ha)
    exact hne d (mem_cons_of_mem _ hd) a.1 hy

section Turn

variable {m : Typing} (hprogram : m.program = c.typing.program)
  (hstable : ∀ x, c.tree.Alive e.pos x → c.typing.bindings.get? x.index = m.bindings.get? x.index)

include hprogram

lemma typing_eq_withBindings : c.typing = m.withBindings c.typing.bindings := by
  rw [Typing.withBindings, hprogram]

lemma binderTypes_of_turn (scrutinee : Ty) (a : Arm) :
    c.typing.binderTypes scrutinee a = m.binderTypes scrutinee a := by
  rw [typing_eq_withBindings hprogram]
  rfl

include hstable

/-- An expression over names that are alive at an event has the same type at the turn of the event
and in the end. -/
lemma exprType_of_turn {label : Int} {value : Expr}
    (halive : ∀ name ∈ value.vars, ∀ x, c.tree.resolve label name = some x → c.tree.Alive e.pos x) :
    c.typing.exprType (c.tree.resolve label) value = m.exprType (c.tree.resolve label) value := by
  rw [typing_eq_withBindings hprogram]
  exact Typing.exprType_withBindings value fun name hname x hx => hstable x (halive name hname x hx)

lemma scrutineeType_of_turn {label : Int} {scrutinee : Expr} (stated : Option TypeId)
    (halive : ∀ name ∈ scrutinee.vars, ∀ x, c.tree.resolve label name = some x →
      c.tree.Alive e.pos x) :
    c.typing.scrutineeType (c.tree.resolve label) scrutinee stated =
      m.scrutineeType (c.tree.resolve label) scrutinee stated := by
  cases stated with
  | some id => rfl
  | none => exact exprType_of_turn hprogram hstable halive

end Turn

lemma readEvents_of_build (hbuild : build program f options = .ok c) :
    Typing.readEvents c.tree { program } f.events = .ok c.typing := by
  obtain ⟨tree, typing, htree, htyping, rfl⟩ := build_cases hbuild
  rw [← (ScopeTree.exact_of_ofFunction htree).events]
  exact htyping

/-- The bindings of an event have in the end the types that the event gave them in its turn, when
all that it looked up already had the type that it has in the end. -/
lemma exists_given (hbuild : build program f options = .ok c) (he : e ∈ f.events)
    (hk : e.kind = .step) :
    ∃ (m : Typing) (as : List (Binding × Ty)), m.program = c.typing.program ∧
      (∀ x, c.tree.Alive e.pos x → c.typing.bindings.get? x.index = m.bindings.get? x.index) ∧
      m.given c.tree e = .ok as ∧
      (c.tree.declaredBy e.label).map (fun b => (b.name, c.typing.bindings.get? b.index)) =
        as.map fun a => (a.1.name, some a.2) := by
  have hread := readEvents_of_build hbuild
  obtain ⟨-, -, rfl⟩ := build_fields hbuild
  have hnests := nests_of_build hbuild
  obtain ⟨before, after, m, as, hes, hbefore, has, hrest, hsub⟩ := Typing.exists_turn hread he
  refine ⟨m, as, ?_, fun x hx => stable_of_turn hnests hes has hrest hx, has, ?_⟩
  · exact (Typing.program_readEvents hbefore).trans (Typing.program_readEvents hread).symm
  · have hfst := Typing.map_fst_given hnests he has
    rw [ScopeTree.introducedBy, if_pos hk] at hfst
    rw [← hfst, map_map]
    refine map_congr_left fun a ha => Prod.ext rfl ?_
    change c.typing.bindings.get? a.1.index = some a.2
    rw [Typing.readEvents_eq hread]
    exact Typing.get?_assignAll (Typing.distinct_assignments hnests hread) (hsub a ha)

lemma map_name_declaredBy (hnests : c.tree.Nests f.events) (he : e ∈ f.events)
    (hk : e.kind = .step) :
    (c.tree.declaredBy e.label).map (·.name) = e.node.declarations.map (·.name) := by
  obtain ⟨scope, index, hd⟩ := hnests.declares e he hk
  have hboth := congrArg (map Prod.fst)
    (ScopeBuilder.map_numbered scope e.label e.pos index e.node.declarations)
  rwa [← hd, map_map, map_map] at hboth

lemma map_declaredBy (hnests : c.tree.Nests f.events) (he : e ∈ f.events) (hk : e.kind = .step)
    (ty : Ty) : ((c.tree.declaredBy e.label).map fun b => (b, ty)).map
      (fun a => (a.1.name, some a.2)) = e.node.declarations.map fun d => (d.name, some ty) := by
  have hpairs := congrArg (map fun name => (name, some ty)) (map_name_declaredBy hnests he hk)
  rw [map_map, map_map] at hpairs
  rw [map_map]
  exact hpairs

/-- The finished typing solves the equation of every event. -/
theorem solves_of_build (hbuild : build program f options = .ok c) (he : e ∈ f.events) :
    c.typing.Solves c.tree e := by
  by_cases hk : e.kind = .step
  · obtain ⟨m, as, hprogram, hstable, has, htypes⟩ := exists_given hbuild he hk
    obtain ⟨-, -, rfl⟩ := build_fields hbuild
    have hnests := nests_of_build hbuild
    have hall := map_declaredBy hnests he hk
    have hlabel := hnests.numbered.labelled e he (by simp [hk])
    unfold Typing.given at has
    rw [Typing.Solves, htypes]
    split at has
    · rename_i p hk hn
      rw [← Except.ok.inj has, hall, hn]
      rfl
    · rename_i hk hn
      rw [← Except.ok.inj has, hall, hn]
      rfl
    · rename_i name value mutable loc _ hn
      obtain ⟨ty, hty, has⟩ := bind_eq_ok.mp has
      refine ⟨ty, ?_, ?_⟩
      · rw [exprType_of_turn hprogram hstable, hty]
        intro name' hname' x hx
        have hbody := c.function.mem_skeleton_of_step he hk (by simp [hn])
        have hnamed : c.Names e (.ofBinding x) := by
          refine .inl ⟨name', ?_, ?_⟩
          · rw [hn]
            exact mem_flatMap.mpr ⟨value, mem_cons_self, hname'⟩
          · rw [meaning, ← hlabel, hx]
            rfl
        exact hnamed.alive hnests hbody hk
      · rw [← Except.ok.inj has, hall, hn]
        rfl
    · rename_i a sel _ hn
      obtain ⟨scrutinee, hscrutinee, has⟩ := bind_eq_ok.mp has
      obtain ⟨types, hbinders, has⟩ := bind_eq_ok.mp has
      refine ⟨scrutinee, types, ?_, ?_, Typing.length_binderTypes hbinders, ?_⟩
      · rw [scrutineeType_of_turn hprogram hstable, hscrutinee]
        intro name hname x hx
        have hbody := c.function.mem_skeleton_of_step he hk (by simp [hn])
        have hnamed : c.Names e (.ofBinding x) := .inr ⟨a, sel, hn, name, hname, hx⟩
        exact hnamed.alive hnests hbody hk
      · rw [binderTypes_of_turn hprogram, hbinders]
      · have hnames := hnests.declaredBy_arm he hk hn
        rw [Arm.named,
          ← Typing.map_fst_filter_zip a.binders (Typing.length_binderTypes hbinders)] at hnames
        rw [← Except.ok.inj has, Typing.namedTypes]
        exact Typing.map_zip_of_names hnames
    · exact trivial
  · unfold Typing.Solves
    split
    all_goals first | exact trivial | exact (hk ‹_›).elim

/-- The types of the bindings of a function are computed in one pass. The pass gives each binding a
type exactly once and gives nothing else, and its result solves the equations of all events:
parameters and declarations with a stated type have that type, a declaration without one has the
type of its value, and the binders of an arm that name something have the types of these binders,
where the types of values and of scrutinees are those in the finished typing. -/
theorem typing_equations (hbuild : build program f options = .ok c) :
    c.typing = Typing.assignAll { program } (Typing.assignments c.tree { program } f.events) ∧
    (∀ a ∈ Typing.assignments c.tree { program } f.events, a.1 ∈ c.tree.bindings) ∧
    (∀ b ∈ c.tree.bindings, ∃ ty,
      (Typing.assignments c.tree { program } f.events).filter (·.1.index = b.index) = [(b, ty)] ∧
      c.typing.bindings.get? b.index = some ty) ∧
    ∀ e ∈ f.events, c.typing.Solves c.tree e := by
  have hread := readEvents_of_build hbuild
  have hnests := ScopeTree.nests_of_ofFunction (tree_of_build hbuild)
  have hfst := Typing.map_fst_assignments hnests (fun e he => he) hread
  have hdistinct := Typing.distinct_assignments hnests hread
  have hmem : ∀ {b : Binding}, b ∈ c.tree.bindings ↔
      b ∈ (Typing.assignments c.tree { program } f.events).map Prod.fst := by
    intro b
    rw [hfst, hnests.mem_introducedBy_iff]
  refine ⟨Typing.readEvents_eq hread, fun a ha => hmem.mpr (mem_map_of_mem ha), fun b hb => ?_,
    fun e he => solves_of_build hbuild he⟩
  obtain ⟨⟨b, ty⟩, ha, rfl⟩ := mem_map.mp (hmem.mp hb)
  refine ⟨ty, Typing.filter_index hdistinct ha, ?_⟩
  rw [Typing.readEvents_eq hread]
  exact Typing.get?_assignAll hdistinct ha

end Context

/-- Names a list anew, takes it apart and names its head anew. -/
def Function.renaming : Function where
  name := "renaming"
  params := [⟨"list", some ⟨4⟩, false, .unknown⟩]
  body := .mk [
    .declare "same" none (.var "list" .unknown) false .unknown,
    .select (.var "same" .unknown)
      [.mk (some "Cons") (.mk [.declare "again" none (.var "first" .unknown) false .unknown]
        .unknown)
          ["first", "_"] false .unknown,
        .mk none (.mk [] .unknown) [] false .unknown] none .unknown] .unknown

namespace Context

/-- Types go from the parameter through the selection to the last declaration. -/
theorem typing_equations_renaming : ∃ c, build .lists .renaming {} = .ok c ∧
    c.tree.bindings.map (fun b => (b.name, c.typing.bindings.get? b.index)) =
      [("list", some (.named ⟨4⟩)), ("same", some (.named ⟨4⟩)), ("first", some (.named ⟨3⟩)),
        ("again", some (.named ⟨3⟩))] ∧
    (∀ b ∈ c.tree.bindings, ∃ ty,
      (Typing.assignments c.tree { program := .lists } Function.renaming.events).filter
        (·.1.index = b.index) = [(b, ty)]) ∧
    ∀ e ∈ Function.renaming.events, c.typing.Solves c.tree e := by
  have hok : (build .lists .renaming {}).toOption.any (fun c => decide (
      c.tree.bindings.map (fun b => (b.name, c.typing.bindings.get? b.index)) =
        [("list", some (.named ⟨4⟩)), ("same", some (.named ⟨4⟩)), ("first", some (.named ⟨3⟩)),
          ("again", some (.named ⟨3⟩))])) = true := by decide +kernel
  obtain ⟨c, hbuild, htest⟩ := Fault.exists_ok hok
  obtain ⟨-, -, honce, hsolves⟩ := typing_equations hbuild
  refine ⟨c, hbuild, of_decide_eq_true htest, fun b hb => ?_, hsolves⟩
  obtain ⟨ty, hty, -⟩ := honce b hb
  exact ⟨ty, hty⟩

end Context

end Ownership
