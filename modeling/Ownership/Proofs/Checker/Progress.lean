import Ownership.Proofs.Checker.Faults
import Ownership.Proofs.Scope.Resolution

/-!
# Functions that are analysed

The analysis of a function of known nodes comes to an end. It fails only for types that are not in
the table or contain themselves by value, and for assignments to something that is no place; without
those it has a report. Every question that the walk asks the scope tree has an answer, since scope
tree, types and walk go through the same nodes.
-/

namespace Ownership

open Context List

variable {P : Fault → Prop}

/-! ### Nodes of a stream -/

def Stmt.statedType? : Stmt → Option TypeId
  | .declare _ type _ _ _ => type
  | .select _ _ type _ => type
  | _ => none

lemma Param.exists_of_mem_eventsAll {params : List Param} {p : Int} {e : Event}
    (he : e ∈ Param.eventsAll p params) : ∃ x ∈ params, e.node = .param x := by
  induction params generalizing p with
  | nil => cases he
  | cons x params ih =>
    rcases mem_cons.mp he with rfl | he
    · exact ⟨x, mem_cons_self, rfl⟩
    · obtain ⟨y, hy, hn⟩ := ih he
      exact ⟨y, mem_cons_of_mem _ hy, hn⟩

/-- Whether a node is of the body with the given statements: it is one of them, a block, or the
header of an arm of one of them. -/
def Node.Of (ss : List Stmt) : Node → Prop
  | stmt s => s ∈ ss ∨ ∃ b, s = .block b
  | arm _ sel => ∃ q, sel = some q ∧ ∃ arms loc, .select q.scrutinee arms q.type loc ∈ ss
  | function | param _ => False

/-- The nodes that a part of a body executes are of all bodies with its statements, and with its
selection if it consists of arms. -/
lemma Skeleton.Laid.of_events {part : Part} {k : Skeleton} {lo hi : Int} {ss : List Stmt}
    (h : Laid part k lo hi) (hss : ∀ e ∈ k.events, ∀ s, e.stmt? = some s → s ∈ ss)
    (hsel : ∀ q, part.selection? = some q → ∃ arms loc, .select q.scrutinee arms q.type loc ∈ ss) :
    ∀ e ∈ k.events, e.kind = .step → e.node.Of ss := by
  have hnone :
      ∀ q : Selection, none = some q → ∃ arms loc, .select q.scrutinee arms q.type loc ∈ ss :=
    fun q hq => nomatch hq
  have hscope : ∀ {es : List Event} {start stop : Int} {node : Node} {kind : ScopeKind},
      (∀ e ∈ es, e.kind = .step → e.node.Of ss) →
      ∀ e ∈ .enter start node kind :: (es ++ [.exit start stop node]), e.kind = .step →
        e.node.Of ss := by
    intro es start stop node kind hes
    refine forall_mem_cons.mpr ⟨EventKind.noConfusion, forall_mem_append.mpr ⟨hes, ?_⟩⟩
    exact forall_mem_singleton.mpr EventKind.noConfusion
  induction h with
  | nil | empty => exact fun e he => nomatch he
  | simple => exact forall_mem_singleton.mpr fun _ => .inl (hss _ mem_cons_self _ rfl)
  | cons _ _ ih ih' =>
    obtain ⟨hk, hl⟩ := forall_mem_append.mp hss
    exact forall_mem_append.mpr ⟨ih hk hnone, ih' hl hnone⟩
  | fork _ _ ih ih' =>
    obtain ⟨hk, hl⟩ := forall_mem_append.mp hss
    exact forall_mem_append.mpr ⟨ih hk hsel, ih' hl hsel⟩
  | block _ ih | scope _ ih =>
    obtain ⟨-, hk⟩ := forall_mem_cons.mp hss
    exact hscope (ih (forall_mem_append.mp hk).1 hnone)
  | branch _ ih =>
    obtain ⟨hhead, hk⟩ := forall_mem_cons.mp hss
    exact forall_mem_cons.mpr ⟨fun _ => .inl (hhead _ rfl), ih hk hnone⟩
  | select _ ih =>
    obtain ⟨hhead, hk⟩ := forall_mem_cons.mp hss
    refine forall_mem_cons.mpr ⟨fun _ => .inl (hhead _ rfl), ih hk ?_⟩
    rintro q ⟨⟩
    exact ⟨_, _, hhead _ rfl⟩
  | loop _ ih =>
    obtain ⟨hhead, hbody⟩ := forall_mem_cons.mp hss
    obtain ⟨-, hk⟩ := forall_mem_cons.mp hbody
    exact forall_mem_cons.mpr
      ⟨fun _ => .inl (hhead _ rfl), hscope (ih (forall_mem_append.mp hk).1 hnone)⟩
  | arm _ ih =>
    obtain ⟨-, harm⟩ := forall_mem_cons.mp hss
    obtain ⟨-, hk⟩ := forall_mem_cons.mp (forall_mem_append.mp harm).1
    exact hscope (forall_mem_cons.mpr ⟨fun _ => ⟨_, rfl, hsel _ rfl⟩, ih hk hnone⟩)

lemma Stmt.of_eventsAll (p : Int) (stmts : List Stmt) :
    ∀ e ∈ Stmt.eventsAll p stmts, e.kind = .step → e.node.Of (Stmt.nestedAll stmts) := by
  rw [← Stmt.events_skeletonAll]
  refine (Stmt.laid_skeletonAll p stmts).of_events (fun e he s hs => ?_) fun q hq => nomatch hq
  rw [Stmt.events_skeletonAll] at he
  rw [← (Stmt.listing_eventsAll p stmts).stmts]
  exact mem_filterMap.mpr ⟨e, he, hs⟩

/-- The type numbers that a program and a function mention: in parameters, results, declarations and
selections, and as members of structs and variants. -/
def Program.mentioned (p : Program) (f : Function) : List TypeId :=
  (f :: p.functions).flatMap (fun g => g.params.filterMap (·.type) ++ g.returnType.toList) ++
    p.externs.entries.filterMap (·.2.returnType) ++ f.statements.filterMap Stmt.statedType? ++
    p.types.defs.flatMap fun d => d.members.map (·.type)

namespace Program

variable {p : Program} {f g : Function} {id : TypeId}

lemma mem_mentioned_param {x : Param} (hg : g ∈ f :: p.functions) (hx : x ∈ g.params)
    (h : x.type = some id) : id ∈ p.mentioned f := by
  refine mem_append_left _ (mem_append_left _ (mem_append_left _ ?_))
  refine mem_flatMap.mpr ⟨g, hg, mem_append_left _ ?_⟩
  exact mem_filterMap.mpr ⟨x, hx, h⟩

lemma mem_mentioned_result (hg : g ∈ f :: p.functions) (h : g.returnType = some id) :
    id ∈ p.mentioned f := by
  refine mem_append_left _ (mem_append_left _ (mem_append_left _ ?_))
  refine mem_flatMap.mpr ⟨g, hg, mem_append_right _ ?_⟩
  exact Option.mem_toList.mpr h

lemma mem_mentioned_external {name : String} {sig : Signature} (hs : p.externs.get? name = some sig)
    (h : sig.returnType = some id) : id ∈ p.mentioned f := by
  refine mem_append_left _ (mem_append_left _ (mem_append_right _ ?_))
  exact mem_filterMap.mpr ⟨(name, sig), Registry.get?_eq_some_iff.mp hs, h⟩

lemma mem_mentioned_stated {s : Stmt} (hs : s ∈ f.statements) (h : s.statedType? = some id) :
    id ∈ p.mentioned f :=
  mem_append_left _ (mem_append_right _ (mem_filterMap.mpr ⟨s, hs, h⟩))

lemma mem_mentioned_member {i : TypeId} {d : TypeDef} {m : FieldDecl} (hd : p.types.get? i = some d)
    (hm : m ∈ d.members) : m.type ∈ p.mentioned f := by
  apply mem_append_right
  have hmem : d ∈ p.types.defs := by
    rw [TypeTable.get?] at hd
    split at hd
    · exact mem_of_getElem? hd
    · cases hd
  exact mem_flatMap.mpr ⟨d, hmem, mem_map_of_mem hm⟩

end Program

/-- The nodes of a function of known nodes are allowed if the types that it mentions are. -/
lemma Function.allowed_events {f : Function} {p : Program} (hf : f.IsKnown)
    (hp : ∀ id ∈ p.mentioned f, p.types.Has P id) :
    ∀ e ∈ f.events, e.kind = .step → e.node.Allowed p.types P := by
  have hknown : ∀ s ∈ f.statements, ∀ x ∈ s.expressions, x.firstForeign? = none := by
    intro s hs x hx
    have hs := hf s hs
    cases s with
    | foreign kind => cases hs
    | _ => exact Option.isNone_iff_eq_none.mp (all_eq_true.mp hs x hx)
  intro e he hk
  rcases mem_cons.mp he with rfl | he
  · cases hk
  rcases mem_append.mp he with he | he
  · rcases mem_append.mp he with he | he
    · obtain ⟨x, hx, hn⟩ := Param.exists_of_mem_eventsAll he
      rw [hn]
      refine ⟨by simp, (fun y hy => nomatch hy), fun id hid => ?_⟩
      exact hp id (Program.mem_mentioned_param mem_cons_self hx hid)
    · have hof := Stmt.of_eventsAll f.bodyStart f.body.stmts e he hk
      cases hn : e.node with
      | function => exact ⟨by simp, (fun y hy => nomatch hy), fun id hid => nomatch hid⟩
      | param x =>
        rw [hn] at hof
        exact hof.elim
      | stmt s =>
        rw [hn] at hof
        rcases hof with hs | ⟨b, rfl⟩
        · refine ⟨?_, hknown s hs, fun id hid => hp id (Program.mem_mentioned_stated hs ?_)⟩
          · rintro kind ⟨⟩
            cases hf _ hs
          · cases s <;> exact hid
        · exact ⟨by simp, (fun y hy => nomatch hy), fun id hid => nomatch hid⟩
      | arm a sel =>
        rw [hn] at hof
        obtain ⟨q, rfl, arms, loc, hs⟩ := hof
        refine ⟨by simp, fun y hy => ?_, fun id hid => hp id (Program.mem_mentioned_stated hs hid)⟩
        obtain rfl := mem_singleton.mp hy
        exact hknown _ hs _ mem_cons_self
  · obtain rfl := mem_singleton.mp he
    cases hk

/-! ### Assignments -/

/-- The name at the root of a chain of fields and dereferences. -/
def Expr.root? : Expr → Option String
  | .var name _ => some name
  | .field e _ _ | .deref e _ => e.root?
  | _ => none

lemma Expr.place?_ne_none {meaning : String → Option Binding} {e : Expr}
    (h : (e.root?.bind meaning).isSome) : e.place? meaning ≠ none := by
  match e with
  | .var name l => simpa [place?, root?, Option.isSome_iff_ne_none] using h
  | .field e x l | .deref e l => simpa [place?] using place?_ne_none (e := e) h
  | .absent | .literal _ _ | .borrow _ _ _ | .call _ _ _ | .binary _ _ _ _ | .construct _ _ _ _
  | .foreign _ => cases h

/-- Whether all targets of assignments in a function are chains of fields and dereferences that
start at a local name. -/
def Function.AssignsLocals (f : Function) : Prop :=
  ∀ t, ScopeTree.ofFunction f = .ok t → ∀ e ∈ f.events, e.kind = .step →
    ∀ target, e.node.target? = some target → (target.root?.bind (t.resolve e.label)).isSome

/-! ### Questions to the scope tree -/

namespace ScopeTree.Exact

variable {es : List Event} {t : ScopeTree} {e : Event} (h : Exact es t) (he : e ∈ es)

include h he

lemma positionOf_eq (hs : e.kind = .step) (kind : String) :
    t.positionOf e.label kind = .ok e.pos := by
  rw [positionOf, h.position e he hs]

lemma exists_scopeOf (hs : e.kind = .enter) (kind : String) :
    ∃ s, t.scopeOf e.label kind = .ok s ∧ s.start = e.pos := by
  obtain ⟨id, s, hid, hscope, hstart⟩ := h.opened e he hs
  refine ⟨s, ?_, hstart⟩
  rw [scopeOf, hid, Option.bind_some, hscope]

lemma declaredBy_arm {a : Arm} {sel : Option Selection} (hs : e.kind = .step)
    (hn : e.node = .arm a sel) : (t.declaredBy e.label).map (·.name) = a.named := by
  obtain ⟨scope, index, hd⟩ := h.declares e he hs
  have hnames := congrArg (map Prod.fst)
    (ScopeBuilder.map_numbered scope e.label e.pos index e.node.declarations)
  rw [← hd, map_map, map_map, hn] at hnames
  simpa [Node.declarations, Function.comp_def] using hnames

end ScopeTree.Exact

/-! ### Analyses -/

/-- The faults of programs whose nodes are all known: types that are not there or contain
themselves, and assignments to what is no place. -/
def Fault.OfProgram : Fault → Prop
  | .missingType _ | .cyclicType .. | .notAPlace _ => True
  | _ => False

namespace Program

variable {p : Program} {f : Function}

lemma mentioned_warm (p : Program) (f : Function) : p.warm.mentioned f = p.mentioned f := by
  rw [mentioned, mentioned, warm, TypeTable.defs_warm]

/-- The analysis of a function of known nodes fails in allowed ways only. -/
theorem yields_analysis (options : Options) (hf : f.IsKnown) (hp : p.types.Allows P)
    (hm : ∀ id ∈ p.mentioned f, p.types.Has P id)
    (ht : ∀ t, ScopeTree.ofFunction f = .ok t → ∀ e ∈ f.events, e.kind = .step →
      ∀ target, e.node.target? = some target → target.place? (t.resolve e.label) = none →
        P (.notAPlace e.pos)) :
    Yields P (build p f options >>= report) fun r => r.function = f.name := by
  obtain ⟨t, htree⟩ := ScopeTree.exists_ofFunction hf
  have hexact := ScopeTree.exact_of_ofFunction htree
  have hnodes := Function.allowed_events hf hm
  have hstart : Typing.Allows { program := p } P := by
    refine ⟨⟨hp, ?_, ?_, ?_⟩, fun index ty hty => nomatch hty⟩
    · intro g hg x hx id hid
      exact hm id (mem_mentioned_param (mem_cons_of_mem _ hg) hx hid)
    · intro g hg id hid
      exact hm id (mem_mentioned_result (mem_cons_of_mem _ hg) hid)
    · intro name sig hs id hid
      exact hm id (mem_mentioned_external hs hid)
  have htyping := hstart.yields_readEvents t t.events (by rw [hexact.events]; exact hnodes)
  have hbuild : Yields P (build p f options) fun c =>
      c.Prepared P f.events ∧ c.function = f ∧ c.tree = t := by
    rw [build, htree]
    apply htyping.bind
    rintro g ⟨hg, hprogram⟩
    refine ⟨⟨hg, hprogram, ?_, ?_, ht t htree⟩, rfl, rfl⟩
    · intro e he hk kind
      obtain ⟨s, hs, -⟩ := hexact.exists_scopeOf he hk kind
      rw [hs]
      exact trivial
    · intro e he hk
      rw [Typing.table, hprogram]
      exact hnodes e he hk
  apply hbuild.bind
  rintro c ⟨hc, rfl, rfl⟩
  exact hc.yields_report hexact.events

lemma analyzeFunction_eq (p : Program) (f : Function) (options : Options) :
    p.analyzeFunction f options = match build p.warm f options >>= report with
      | .ok report => .ok report
      | .error fault => .error (.within f fault) :=
  rfl

lemma analyzeFunction_eq_ok {options : Options} {r : Report} : p.analyzeFunction f options = .ok r ↔
    ∃ c, build p.warm f options = .ok c ∧ c.report = .ok r := by
  rw [analyzeFunction_eq, ← bind_eq_ok]
  cases build p.warm f options >>= report <;> simp

lemma yields_analyzeFunction (options : Options) (hf : f.IsKnown) (hp : p.types.Allows P)
    (hm : ∀ id ∈ p.mentioned f, p.types.Has P id)
    (ht : ∀ t, ScopeTree.ofFunction f = .ok t → ∀ e ∈ f.events, e.kind = .step →
      ∀ target, e.node.target? = some target → target.place? (t.resolve e.label) = none →
        P (.notAPlace e.pos)) :
    (∃ r, p.analyzeFunction f options = .ok r ∧ r.function = f.name) ∨
      ∃ fault, p.analyzeFunction f options = .error (.within f fault) ∧ P fault := by
  have hdefs := TypeTable.defs_warm p.types
  have hm' : ∀ id ∈ p.warm.mentioned f, p.warm.types.Has P id := by
    intro id hid
    rw [mentioned_warm] at hid
    rw [TypeTable.Has, warm, TypeTable.get?_congr hdefs]
    exact hm id hid
  have hyields :=
    yields_analysis options hf (hp.of_same hdefs (TypeTable.names_warm p.types)) hm' ht
  rw [analyzeFunction_eq]
  cases hx : build p.warm f options >>= report with
  | ok r =>
    rw [hx] at hyields
    exact .inl ⟨r, rfl, hyields⟩
  | error fault =>
    rw [hx] at hyields
    exact .inr ⟨fault, rfl, hyields⟩

/-- A function of known nodes has a report if its types are there and finite, and its assignments go
to local places. -/
theorem exists_report (options : Options) (hf : f.IsKnown) (hp : p.types.Coherent)
    (hm : ∀ id ∈ p.mentioned f, (p.types.get? id).isSome)
    (hc : ∀ id, ¬Relation.TransGen p.types.Contains id id) (ha : f.AssignsLocals) :
    ∃ r, p.analyzeFunction f options = .ok r ∧ r.function = f.name := by
  have hhas : ∀ {id}, (p.types.get? id).isSome → p.types.Has (fun _ => False) id := by
    intro id hid hn
    rw [hn] at hid
    cases hid
  have hallows : p.types.Allows fun _ => False := by
    constructor
    · exact fun id d inner hd hi => hhas (hp.pointee id d inner hd hi)
    · exact fun id d hd m hmem => hhas (hm _ (mem_mentioned_member hd hmem))
    · exact fun name id hid => hhas (hp.named name id hid)
    · exact fun id hid => absurd hid (hc id)
  have hcases := yields_analyzeFunction options hf hallows (fun id hid => hhas (hm id hid))
    fun t ht e he hs target htarget => Expr.place?_ne_none (ha t ht e he hs target htarget)
  exact hcases.resolve_right fun ⟨fault, _, hfalse⟩ => hfalse

/-- A fault of the program names the function, unless it is that a type is missing. -/
lemma function_within {fault : Fault} (h : fault.OfProgram) (f : Function) :
    (Failure.within f fault).function =
      if fault.family = .missingType then none else some f.name := by
  cases fault <;> first | exact h.elim | rfl

/-- What stops an analysis is due to types or to an assignment. -/
theorem ofProgram_of_error {options : Options} {failure : Failure} (hf : f.IsKnown)
    (h : p.analyzeFunction f options = .error failure) : failure.fault.OfProgram ∧
      failure.function = if failure.fault.family = .missingType then none else some f.name := by
  have hallows : p.types.Allows Fault.OfProgram := by
    constructor
    · exact fun _ _ _ _ _ _ => trivial
    · exact fun _ _ _ _ _ _ => trivial
    · exact fun _ _ _ _ => trivial
    · exact fun _ _ _ _ => trivial
  rcases yields_analyzeFunction options hf hallows (fun _ _ _ => trivial)
    (fun _ _ _ _ _ _ _ _ => trivial) with ⟨r, hr, -⟩ | ⟨fault, hr, hfault⟩
  · rw [hr] at h
    cases h
  · rw [hr] at h
    obtain rfl := Except.error.inj h
    exact ⟨hfault, function_within hfault f⟩

theorem refused_of_not_known (options : Options) (hf : ¬f.IsKnown) :
    ∃ fault, p.analyzeFunction f options = .error ⟨fault, some f.name⟩ ∧
      fault.family = .malformedProgram ∧
      ∃ kind, fault = .unknownStatement kind ∨ fault = .unknownExpression kind := by
  obtain ⟨kind, hkind⟩ := ScopeTree.ofFunction_of_not_known hf
  rw [analyzeFunction_eq, build]
  rcases hkind with hkind | hkind
  · rw [hkind]
    exact ⟨.unknownStatement kind, rfl, rfl, kind, .inl rfl⟩
  · rw [hkind]
    exact ⟨.unknownExpression kind, rfl, rfl, kind, .inr rfl⟩

end Program

namespace Program

/-- Functions are analysed if all their nodes are known, the types they mention are in a table made
by operations and contain nothing by value that contains them, and they assign to local places. An
unknown node is refused as such; otherwise only types and targets of assignments make an analysis
fail, with the name of the function unless a type is missing, and what it looks up in the scope
tree is there. -/
theorem analyzeFunction_progress (p : Program) (f : Function) (options : Options) :
    (f.IsKnown → (∃ steps, p.types = (TypeTable.empty.run steps).2) →
      (∀ id ∈ p.mentioned f, (p.types.get? id).isSome) →
      (∀ id, ¬Relation.TransGen p.types.Contains id id) → f.AssignsLocals →
      ∃ r, p.analyzeFunction f options = .ok r ∧ r.function = f.name) ∧
    (¬f.IsKnown → ∃ fault, p.analyzeFunction f options = .error ⟨fault, some f.name⟩ ∧
      fault.family = .malformedProgram ∧
      ∃ kind, fault = .unknownStatement kind ∨ fault = .unknownExpression kind) ∧
    (f.IsKnown → ∀ failure, p.analyzeFunction f options = .error failure →
      failure.fault.OfProgram ∧
        failure.function = if failure.fault.family = .missingType then none else some f.name) ∧
    ∀ t, ScopeTree.ofFunction f = .ok t → ∀ e ∈ f.events,
      (e.kind = .step → t.positionOf e.label e.node.kindName = .ok e.pos) ∧
      (e.kind = .enter → ∃ s, t.scopeOf e.label e.node.kindName = .ok s ∧ s.start = e.pos) ∧
      ∀ a sel, e.kind = .step → e.node = .arm a sel →
        (t.declaredBy e.label).map (·.name) = a.named := by
  refine ⟨?_, refused_of_not_known options, fun hf failure hfail => ofProgram_of_error hf hfail, ?_⟩
  · rintro hf ⟨steps, hsteps⟩ hm hc ha
    refine exists_report options hf ?_ hm hc ha
    rw [hsteps]
    exact TypeTable.Coherent.empty.run steps
  · intro t ht e he
    have hexact := ScopeTree.exact_of_ofFunction ht
    exact ⟨fun hs => hexact.positionOf_eq he hs _, fun hs => hexact.exists_scopeOf he hs _,
      fun a sel hs hn => hexact.declaredBy_arm he hs hn⟩

end Program

/-- A program with a type of lists, which contain themselves behind a box. -/
def Program.lists : Program where
  types := (TypeTable.empty.run [.newScalar "Int", .newScalar "Bool", .newOwned "Text",
    .declareVariant "List" none, .ensureBox ⟨4⟩,
    .defineVariant ⟨4⟩ [⟨"Nil", []⟩, ⟨"Cons", [⟨"head", ⟨3⟩⟩, ⟨"tail", ⟨5⟩⟩]⟩]]).2

/-- A function that counts in a loop and takes a list apart. -/
def Function.unpacking : Function where
  name := "unpacking"
  params := [⟨"list", some ⟨4⟩, false, .unknown⟩]
  body := .mk [
    .declare "n" (some ⟨1⟩) (.literal (.int 0) .unknown) true .unknown,
    .loop (.binary .lt (.var "n" .unknown) (.literal (.int 3) .unknown) .unknown)
      (.mk [.assign (.var "n" .unknown)
        (.binary .add (.var "n" .unknown) (.literal (.int 1) .unknown) .unknown) .unknown] .unknown)
      .unknown,
    .select (.var "list" .unknown)
      [.mk (some "Cons") (.mk [.evaluate (.var "first" .unknown) .unknown] .unknown) ["first",
        "_"] false
          .unknown,
        .mk none (.mk [] .unknown) [] false .unknown] none .unknown] .unknown

namespace Program

/-- Lists are finite, so that a function on them is analysed. -/
theorem analyzeFunction_progress_unpacking :
    Function.unpacking.IsKnown ∧
    (∀ id ∈ lists.mentioned .unpacking, (lists.types.get? id).isSome) ∧
    (∀ id, ¬Relation.TransGen lists.types.Contains id id) ∧ Function.unpacking.AssignsLocals ∧
    ∃ r, lists.analyzeFunction .unpacking {} = .ok r ∧ r.function = "unpacking" := by
  have hknown : Function.unpacking.IsKnown := by
    show ∀ s ∈ Function.unpacking.statements, s.isKnown = true
    decide
  have hmentioned : ∀ id ∈ lists.mentioned .unpacking, (lists.types.get? id).isSome := by decide
  -- Only the lists have members, and these are no lists.
  have hmembers :
      ∀ k, (h : k < lists.types.defs.length) → ∀ m ∈ (lists.types.defs.get ⟨k, h⟩).members,
      k = 3 ∧ m.type.val ≠ 4 := by decide
  have hcontains : ∀ {i j}, lists.types.Contains i j → i.val = 4 ∧ j.val ≠ 4 := by
    rintro i j ⟨d, hd, m, hm, rfl⟩
    rw [TypeTable.get?] at hd
    split at hd
    · obtain ⟨hk, rfl⟩ := List.getElem?_eq_some_iff.mp hd
      obtain ⟨hthree, hne⟩ := hmembers _ hk m hm
      exact ⟨by omega, hne⟩
    · cases hd
  have hacyclic : ∀ id, ¬Relation.TransGen lists.types.Contains id id := by
    intro id hid
    obtain ⟨i, hi, -⟩ := Relation.TransGen.head'_iff.mp hid
    obtain ⟨j, -, hj⟩ := Relation.TransGen.tail'_iff.mp hid
    exact (hcontains hj).2 (hcontains hi).1
  have hlocal : Function.unpacking.AssignsLocals := by
    have hok : (ScopeTree.ofFunction .unpacking).toOption.any (fun t => decide (
        ∀ e ∈ Function.unpacking.events, e.kind = .step → ∀ target ∈ e.node.target?,
          (target.root?.bind (t.resolve e.label)).isSome)) = true := by decide +kernel
    obtain ⟨t₀, ht₀, htest⟩ := Fault.exists_ok hok
    intro t ht
    rw [ht₀] at ht
    cases ht
    exact of_decide_eq_true htest
  obtain ⟨hprogress, -⟩ := analyzeFunction_progress lists .unpacking {}
  exact ⟨hknown, hmentioned, hacyclic, hlocal,
    hprogress hknown ⟨_, rfl⟩ hmentioned hacyclic hlocal⟩

end Program

end Ownership
