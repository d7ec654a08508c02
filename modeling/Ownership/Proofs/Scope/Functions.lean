import Ownership.Proofs.Scope.Brackets

/-!
# Streams of functions

The stream of a function is a pair of brackets, and it executes the statements of the body in the
order of the text. A function has a scope tree exactly if all its nodes are of known kinds.
-/

namespace Ownership

open List

/-! ### Statements of a body -/

mutual

/-- The statements in a statement, itself included, in the order of the text. Blocks are not listed,
their statements are. -/
def Stmt.nested : Stmt → List Stmt
  | .block b => b.nested
  | .branch test t e l => .branch test t e l :: (t.nested ++ Block.nestedOpt e)
  | .loop test b l => .loop test b l :: b.nested
  | .select s arms ty l => .select s arms ty l :: Arm.nestedAll arms
  | s => [s]

def Block.nested : Block → List Stmt
  | .mk stmts _ => Stmt.nestedAll stmts

def Block.nestedOpt : Option Block → List Stmt
  | none => []
  | some b => b.nested

def Stmt.nestedAll : List Stmt → List Stmt
  | [] => []
  | s :: rest => s.nested ++ Stmt.nestedAll rest

def Arm.nestedAll : List Arm → List Stmt
  | [] => []
  | .mk _ b _ _ _ :: rest => b.nested ++ Arm.nestedAll rest

end

def Function.statements (f : Function) : List Stmt := Stmt.nestedAll f.body.stmts

/-- Whether all statements of a function, and all expressions in them, are of known kinds. -/
def Function.IsKnown (f : Function) : Prop := ∀ s ∈ f.statements, s.isKnown = true

/-- The word for a statement of an unknown kind. -/
def Stmt.foreignKind? : Stmt → Option String
  | .foreign kind => some kind
  | _ => none

def Event.stmt? (e : Event) : Option Stmt :=
  match e.kind, e.node with
  | .step, .stmt s => some s
  | _, _ => none

lemma Event.stmt?_eq_some_iff {e : Event} {s : Stmt} :
    e.stmt? = some s ↔ e.kind = .step ∧ e.node = .stmt s := by
  unfold Event.stmt?
  split
  · rename_i s' hk hn
    simp [hk, hn]
  · rename_i hne
    simp only [reduceCtorEq, false_iff]
    rintro ⟨hk, hn⟩
    exact hne s hk hn

/-- Whether a stream is balanced and executes statements, besides parameters and headers of arms. -/
structure Listing (ss : List Stmt) (es : List Event) : Prop where
  balanced : Balanced es
  stmts : es.filterMap Event.stmt? = ss
  noBlock : ∀ e ∈ es, e.kind = .step → e.node.isBlock = false
  noFunction : ∀ e ∈ es, e.kind = .step → e.node ≠ .function
  labelled : ∀ e ∈ es, e.kind ≠ .exit → e.label = e.pos

namespace Listing

variable {ss ts : List Stmt} {es fs : List Event}

lemma nil : Listing [] [] := by
  constructor <;> simp [Balanced.nil]

lemma append (h : Listing ss es) (h' : Listing ts fs) : Listing (ss ++ ts) (es ++ fs) where
  balanced := h.balanced.append h'.balanced
  stmts := by rw [filterMap_append, h.stmts, h'.stmts]
  noBlock e he := (mem_append.mp he).elim (h.noBlock e) (h'.noBlock e)
  noFunction e he := (mem_append.mp he).elim (h.noFunction e) (h'.noFunction e)
  labelled e he := (mem_append.mp he).elim (h.labelled e) (h'.labelled e)

lemma single (p : Int) {node : Node} (hs : (Event.step p node).stmt?.toList = ss)
    (hb : node.isBlock = false) (hf : node ≠ .function) : Listing ss [.step p node] where
  balanced := .step rfl .nil
  stmts := by
    rw [← hs]
    cases h : (Event.step p node).stmt? <;> simp [h]
  noBlock e he _ := by
    obtain rfl := mem_singleton.mp he
    exact hb
  noFunction e he _ := by
    obtain rfl := mem_singleton.mp he
    exact hf
  labelled e he _ := by
    obtain rfl := mem_singleton.mp he
    rfl

/-- A scope around events adds no statement. -/
lemma scope (start stop : Int) (node : Node) (kind : ScopeKind) (h : Listing ss es) :
    Listing ss (.enter start node kind :: (es ++ [.exit start stop node])) := by
  have hmem : ∀ e ∈ Event.enter start node kind :: (es ++ [.exit start stop node]),
      e ∈ es ∨ e = .enter start node kind ∨ e = .exit start stop node := by
    intro e he
    rcases mem_cons.mp he with rfl | he
    · exact .inr (.inl rfl)
    · rcases mem_append.mp he with he | he
      · exact .inl he
      · exact .inr (.inr (mem_singleton.mp he))
  constructor
  · exact .scope rfl rfl rfl h.balanced .nil
  · simp only [filterMap_cons, filterMap_append, Event.stmt?, Event.enter, Event.exit,
      h.stmts, filterMap_nil, append_nil]
  · intro e he hs
    rcases hmem e he with he | rfl | rfl
    · exact h.noBlock e he hs
    · cases hs
    · cases hs
  · intro e he hs
    rcases hmem e he with he | rfl | rfl
    · exact h.noFunction e he hs
    · cases hs
    · cases hs
  · intro e he hk
    rcases hmem e he with he | rfl | rfl
    · exact h.labelled e he hk
    · rfl
    · exact absurd rfl hk

end Listing

mutual

/-- The events of a statement list it and what is nested in it. -/
lemma Stmt.listing_events (p : Int) (stmt : Stmt) : Listing stmt.nested (stmt.events p) := by
  match stmt with
  | .block b =>
    rw [Stmt.nested, Stmt.events]
    exact b.listing_events .block p
  | .declare _ _ _ _ _ | .assign _ _ _ | .evaluate _ _ | .ret _ _ | .foreign _ =>
    rw [Stmt.nested, Stmt.events]
    · exact .single p rfl rfl (by simp)
    all_goals simp
  | .branch test t e l =>
    rw [Stmt.nested, Stmt.events]
    have hhead : Listing [.branch test t e l] [.step p (.stmt (.branch test t e l))] :=
      .single p rfl rfl (by simp)
    exact hhead.append ((t.listing_events .branch (p + 1)).append
      (Block.listing_eventsOpt (p + 1 + t.width) e))
  | .loop test b l =>
    rw [Stmt.nested, Stmt.events]
    have hhead : Listing [.loop test b l] [.step p (.stmt (.loop test b l))] :=
      .single p rfl rfl (by simp)
    exact hhead.append (b.listing_events .loopBody (p + 1))
  | .select s arms ty l =>
    rw [Stmt.nested, Stmt.events]
    have hhead : Listing [.select s arms ty l] [.step p (.stmt (.select s arms ty l))] :=
      .single p rfl rfl (by simp)
    exact hhead.append (Arm.listing_eventsAll ⟨s, ty, p⟩ (p + 1) arms)

lemma Block.listing_events (kind : ScopeKind) (p : Int) (b : Block) :
    Listing b.nested (b.events kind p) := by
  match b with
  | .mk stmts l =>
    rw [Block.nested, Block.events]
    exact (Stmt.listing_eventsAll (p + 1) stmts).scope _ _ _ _

lemma Block.listing_eventsOpt (p : Int) (b : Option Block) :
    Listing (Block.nestedOpt b) (Block.eventsOpt p b) := by
  match b with
  | none => exact .nil
  | some b =>
    rw [Block.nestedOpt, Block.eventsOpt]
    exact b.listing_events .branch p

lemma Stmt.listing_eventsAll (p : Int) (stmts : List Stmt) :
    Listing (Stmt.nestedAll stmts) (Stmt.eventsAll p stmts) := by
  match stmts with
  | [] => exact .nil
  | stmt :: rest =>
    rw [Stmt.nestedAll, Stmt.eventsAll]
    exact (stmt.listing_events p).append (Stmt.listing_eventsAll (p + stmt.width) rest)

lemma Arm.listing_eventsAll (sel : Selection) (p : Int) (arms : List Arm) :
    Listing (Arm.nestedAll arms) (Arm.eventsAll sel p arms) := by
  match arms with
  | [] => exact .nil
  | .mk v (.mk stmts l) binders byRef loc :: rest =>
    rw [Arm.nestedAll, Arm.eventsAll, Block.nested]
    have hhead : Listing []
        [.step (p + 1) (.arm (.mk v (.mk stmts l) binders byRef loc) (some sel))] :=
      .single (p + 1) rfl rfl (by simp)
    have hbody := (hhead.append (Stmt.listing_eventsAll (p + 2) stmts)).scope p
      (p + 2 + Stmt.widthAll stmts) (.stmt (.block (.mk stmts l))) .arm
    have hall := hbody.append (Arm.listing_eventsAll sel (p + 3 + Stmt.widthAll stmts) rest)
    simpa using hall

end

mutual

/-- The first unknown statement is the first one that is listed. -/
lemma Stmt.firstForeign?_eq (stmt : Stmt) :
    stmt.firstForeign? = stmt.nested.findSome? Stmt.foreignKind? := by
  match stmt with
  | .block b =>
    rw [Stmt.firstForeign?, Stmt.nested]
    exact b.firstForeign?_eq
  | .declare _ _ _ _ _ | .assign _ _ _ | .evaluate _ _ | .ret _ _ | .foreign _ => rfl
  | .branch test t e l =>
    rw [Stmt.firstForeign?, Stmt.nested, t.firstForeign?_eq, Block.firstForeignOpt?_eq e]
    exact findSome?_append.symm
  | .loop test b l =>
    rw [Stmt.firstForeign?, Stmt.nested, b.firstForeign?_eq]
    rfl
  | .select s arms ty l =>
    rw [Stmt.firstForeign?, Stmt.nested, Arm.firstForeignOf?_eq arms]
    rfl

lemma Block.firstForeign?_eq (b : Block) :
    b.firstForeign? = b.nested.findSome? Stmt.foreignKind? := by
  match b with
  | .mk stmts l =>
    rw [Block.firstForeign?, Block.nested]
    exact Stmt.firstForeignOf?_eq stmts

lemma Block.firstForeignOpt?_eq (b : Option Block) :
    Block.firstForeignOpt? b = (Block.nestedOpt b).findSome? Stmt.foreignKind? := by
  match b with
  | none => rfl
  | some b =>
    rw [Block.firstForeignOpt?, Block.nestedOpt]
    exact b.firstForeign?_eq

lemma Stmt.firstForeignOf?_eq (stmts : List Stmt) :
    Stmt.firstForeignOf? stmts = (Stmt.nestedAll stmts).findSome? Stmt.foreignKind? := by
  match stmts with
  | [] => rfl
  | stmt :: rest =>
    rw [Stmt.firstForeignOf?, Stmt.nestedAll, stmt.firstForeign?_eq, Stmt.firstForeignOf?_eq rest,
      findSome?_append]

lemma Arm.firstForeignOf?_eq (arms : List Arm) :
    Arm.firstForeignOf? arms = (Arm.nestedAll arms).findSome? Stmt.foreignKind? := by
  match arms with
  | [] => rfl
  | .mk v b binders byRef loc :: rest =>
    rw [Arm.firstForeignOf?, Arm.nestedAll, b.firstForeign?_eq, Arm.firstForeignOf?_eq rest,
      findSome?_append]

end

/-! ### Functions -/

lemma Param.listing_eventsAll (p : Int) (params : List Param) :
    Listing [] (Param.eventsAll p params) := by
  induction params generalizing p with
  | nil => exact .nil
  | cons param params ih =>
    have hhead : Listing [] [.step p (.param param)] := .single p rfl rfl (by simp)
    exact hhead.append (ih (p + 1))

namespace Function

variable {f : Function}

lemma listing_inside (f : Function) : Listing f.statements
    (Param.eventsAll 1 f.params ++ Stmt.eventsAll f.bodyStart f.body.stmts) :=
  (Param.listing_eventsAll 1 f.params).append (Stmt.listing_eventsAll f.bodyStart f.body.stmts)

lemma listing_events (f : Function) : Listing f.statements f.events :=
  f.listing_inside.scope 0 f.stop .function .function

lemma wellBracketed_events (f : Function) : WellBracketed f.events :=
  ⟨_, _, _, rfl, rfl, rfl, rfl, f.listing_inside.balanced⟩

lemma firstForeign?_body (f : Function) :
    f.body.firstForeign? = f.statements.findSome? Stmt.foreignKind? := by
  cases hb : f.body with
  | mk stmts l =>
    rw [statements, hb, Block.firstForeign?_eq]
    rfl

lemma mem_statements_iff {s : Stmt} :
    s ∈ f.statements ↔ ∃ e ∈ f.events, e.kind = .step ∧ e.node = .stmt s := by
  rw [← f.listing_events.stmts, mem_filterMap]
  simp only [Event.stmt?_eq_some_iff]

/-- A function without unknown statements has a stream of events. -/
lemma linearize_of_stmts (h : ∀ s ∈ f.statements, ∀ kind, s ≠ .foreign kind) :
    f.linearize = .ok f.events ∧
      ∀ e ∈ f.events, e.kind = .step → e.node.executes = true := by
  have hnone : f.body.firstForeign? = none := by
    rw [firstForeign?_body, findSome?_eq_none_iff]
    intro s hs
    cases s with
    | foreign kind => exact absurd rfl (h _ hs kind)
    | _ => rfl
  refine ⟨by rw [linearize, hnone], fun e he hs => ?_⟩
  have hb := f.listing_events.noBlock e he hs
  have hf := f.listing_events.noFunction e he hs
  cases hn : e.node with
  | function => exact absurd hn hf
  | param p => rfl
  | arm a sel => rfl
  | stmt s =>
    have hforeign := h s (mem_statements_iff.mpr ⟨e, he, hs, hn⟩)
    rw [hn] at hb
    cases s with
    | block b => cases hb
    | foreign kind => exact absurd rfl (hforeign kind)
    | _ => rfl

end Function

namespace ScopeTree

variable {f : Function}

/-- A function that is known has a scope tree. -/
theorem exists_ofFunction (h : f.IsKnown) : ∃ t, ofFunction f = .ok t := by
  have hstmts : ∀ s ∈ f.statements, ∀ kind, s ≠ .foreign kind := by
    rintro s hs kind rfl
    cases h _ hs
  obtain ⟨hlin, hexec⟩ := Function.linearize_of_stmts hstmts
  have hknown : ∀ e ∈ f.events, e.kind = .step → e.node.isKnown = true := by
    intro e he hs
    cases hn : e.node with
    | function => exact absurd hn (f.listing_events.noFunction e he hs)
    | param p => rfl
    | arm a sel => rfl
    | stmt s => exact h s (Function.mem_statements_iff.mpr ⟨e, he, hs, hn⟩)
  obtain ⟨t, ht⟩ := (exists_ofEvents_iff hknown).mpr
    ⟨f.wellBracketed_events, f.listing_events.noBlock⟩
  exact ⟨t, by rw [ofFunction, hlin]; exact ht⟩

/-- A function with a node of an unknown kind is refused for such a node. -/
theorem ofFunction_of_not_known (h : ¬f.IsKnown) :
    ∃ kind, ofFunction f = .error (.unknownStatement kind) ∨
      ofFunction f = .error (.unknownExpression kind) := by
  cases hforeign : f.body.firstForeign? with
  | some kind => exact ⟨kind, .inl (by rw [ofFunction, Function.linearize, hforeign]; rfl)⟩
  | none =>
    have hstmts : ∀ s ∈ f.statements, ∀ kind, s ≠ .foreign kind := by
      rw [Function.firstForeign?_body, findSome?_eq_none_iff] at hforeign
      rintro s hs kind rfl
      cases hforeign _ hs
    obtain ⟨hlin, hexec⟩ := Function.linearize_of_stmts hstmts
    rcases read_of_wellBracketed { events := f.events } f.wellBracketed_events hexec
      with ⟨b, hb, hst⟩ | ⟨e, he, hs, -, kind, hkind⟩
    · -- What is read is known.
      refine absurd (fun s hs => ?_) h
      obtain ⟨e, he, hk, hn⟩ := Function.mem_statements_iff.mp hs
      have hknown := (ScopeBuilder.known_of_read hb e he hk).1
      rwa [hn] at hknown
    · refine ⟨kind, .inr ?_⟩
      rw [ofFunction, hlin]
      exact ofEvents_of_read rfl hkind

/-- Streams of known nodes fall into three classes: a pair of brackets in which no block is executed
has a scope tree, a stream that comes to a block is refused for it, and all others are unbalanced.
Functions of known nodes always have a scope tree. -/
theorem ofEvents_classified (es : List Event)
    (hk : ∀ e ∈ es, e.kind = .step → e.node.isKnown = true) :
    ((∃ t, ofEvents es = .ok t) ↔
      WellBracketed es ∧ ∀ e ∈ es, e.kind = .step → e.node.isBlock = false) ∧
    (ofEvents es = .error (.unexpectedStep "Block") ↔ ReachesBlock es) ∧
    (¬(WellBracketed es ∧ ∀ e ∈ es, e.kind = .step → e.node.isBlock = false) → ¬ReachesBlock es →
      ∃ f p, ofEvents es = .error f ∧ f.family = .unbalancedScopes p) ∧
    ∀ g : Function, g.IsKnown → ∃ t, ofFunction g = .ok t := by
  refine ⟨exists_ofEvents_iff hk, unexpectedStep_iff hk, fun hw hr => ?_,
    fun g hg => exists_ofFunction hg⟩
  cases he : ofEvents es with
  | ok t => exact absurd ((exists_ofEvents_iff hk).mp ⟨t, he⟩) hw
  | error f =>
    rcases unbalanced_of_error hk he with ⟨p, hp⟩ | rfl
    · exact ⟨f, p, rfl, hp⟩
    · exact absurd ((unexpectedStep_iff hk).mp he) hr

end ScopeTree

/-- A function with a block that declares a copy of its parameter. -/
def Function.copying : Function where
  name := "copying"
  params := [⟨"x", some ⟨1⟩, false, .unknown⟩]
  body :=
    .mk [.block (.mk [.declare "y" none (.var "x" .unknown) false .unknown] .unknown)] .unknown

/-- A function in which a block is executed instead of being entered and left. -/
def Event.blockAsStep : List Event :=
  [.enter 0 .function .function, .step 1 (.stmt (.block (.mk [] .unknown))), .exit 0 2 .function]

namespace ScopeTree

/-- A scope in another one: the stream has a tree, and none without its last event. -/
theorem ofEvents_classified_copying :
    (∀ e ∈ Function.copying.events, e.kind = .step → e.node.isKnown = true) ∧
    (∀ e ∈ Function.copying.events.dropLast, e.kind = .step → e.node.isKnown = true) ∧
    WellBracketed Function.copying.events ∧ (∃ t, ofEvents Function.copying.events = .ok t) ∧
    ¬WellBracketed Function.copying.events.dropLast ∧
    ¬∃ t, ofEvents Function.copying.events.dropLast = .ok t := by
  have hk : ∀ e ∈ Function.copying.events, e.kind = .step → e.node.isKnown = true := by decide
  have hk' : ∀ e ∈ Function.copying.events.dropLast, e.kind = .step → e.node.isKnown = true := by
    decide
  have hw := Function.copying.wellBracketed_events
  have hnone : ¬∃ t, ofEvents Function.copying.events.dropLast = .ok t := by
    rintro ⟨t, ht⟩
    cases ht
  refine ⟨hk, hk', hw, (ofEvents_classified _ hk).1.mpr ⟨hw, by decide⟩, fun hw' => ?_, hnone⟩
  exact hnone ((ofEvents_classified _ hk').1.mpr ⟨hw', by decide⟩)

/-- The brackets match, all nodes are of known kinds, and yet there is no tree. -/
theorem not_ofEvents_blockAsStep :
    (∀ e ∈ Event.blockAsStep, e.kind = .step → e.node.isKnown = true) ∧
    WellBracketed Event.blockAsStep ∧ ¬∃ t, ofEvents Event.blockAsStep = .ok t := by
  have hw : WellBracketed Event.blockAsStep :=
    ⟨_, [.step 1 (.stmt (.block (.mk [] .unknown)))], _, rfl, rfl, rfl, rfl, .step rfl .nil⟩
  refine ⟨by decide, hw, ?_⟩
  rintro ⟨t, ht⟩
  cases ht

end ScopeTree

end Ownership
