import Ownership.Checker.Walk
import Ownership.Proofs.Guise.Types

/-!
# Walks in another guise

Every rule does to a session in the guise what it does to the session, in the guise. So a walk of
the function in the guise ends in the session of the walk of the function, in the guise, or with
the same fault. A finding that the guise leaves out is left out by a switch of its options; it has
no say in which other findings are repeated, because repeated findings are of one kind.
-/

namespace Ownership

open Context Fault List

namespace Guise

variable (g : Guise)

/-! ### Findings and sessions -/

def violation : Violation → Violation
  | .useAfterMove binding place movedPlace movedAt movedSpan =>
    .useAfterMove binding place movedPlace movedAt (g.span movedSpan)
  | v => v

def finding (f : Finding) : Finding :=
  { f with span := g.span f.span, violation := g.violation f.violation }

def keeps : Violation → Bool
  | .moveWhileBorrowed .. => g.moves
  | .writeWhileBorrowed .. => g.writes
  | .nonExhaustiveMatch .. | .unreachableArm .. | .unknownVariant .. | .nonVariantScrutinee .. =>
    g.coverage
  | _ => true

/-- The findings that are kept, in the guise. -/
def findings (fs : List Finding) : List Finding := (fs.filter (g.keeps ·.violation)).map g.finding

def snapshot (x : Snapshot) : Snapshot where
  pos := x.pos
  replay := x.replay
  flow := g.flow x.flow
  loans := x.loans.map g.loan

def session (s : Session) : Session where
  flow := g.flow s.flow
  scopes := s.scopes
  replay := s.replay
  span := g.span s.span
  findings := g.findings s.findings
  drops := s.drops
  loans := s.loans.map g.loan
  dangling := s.dangling
  trace := s.trace.map g.snapshot

/-- The options with the switches off whose findings are left out. -/
def options (o : Options) : Options :=
  { o with
    reportMovesWhileBorrowed := o.reportMovesWhileBorrowed && g.moves
    reportWritesWhileBorrowed := o.reportWritesWhileBorrowed && g.writes
    checkExhaustiveness := o.checkExhaustiveness && g.coverage }

/-- What a walk needs to know about its function in the guise, in a program. -/
def context (q : Program) (c : Context) : Context where
  program := q
  function := g.function c.function
  tree := g.tree c.tree
  typing := g.typing q c.typing
  options := g.options c.options
  tracksLoans := c.tracksLoans
  replays := c.replays

/-- The program is in the guise what a context knows of its program. -/
structure OnContext (c : Context) (q : Program) : Prop where
  program : g.OnProgram c.program q
  typing : g.OnProgram c.typing.program q

variable {g} {s : Session} {t : ScopeTree}

@[simp] lemma code_violation (v : Violation) : (g.violation v).code = v.code := by
  cases v <;> rfl

@[simp] lemma message_violation (v : Violation) : (g.violation v).message = v.message := by
  cases v <;> rfl

@[simp] lemma component_finding (f : Finding) : (g.finding f).component = f.component := by
  obtain ⟨pos, span, v⟩ := f
  cases v <;> rfl

lemma repeats_finding (f f' : Finding) : (g.finding f).repeats (g.finding f') = f.repeats f' := by
  simp only [Finding.repeats, finding, code_violation, message_violation]
  rfl

/-- A finding that repeats another one is of its kind and kept along with it. -/
lemma keeps_of_repeats {f f' : Finding} (h : f.repeats f' = true) :
    g.keeps f'.violation = g.keeps f.violation := by
  have hcode : ∀ v : Violation, g.keeps v = if v.code = "E_MOVE_WHILE_BORROWED" then g.moves
      else if v.code = "E_WRITE_WHILE_BORROWED" then g.writes
      else if v.code ∈ ["E_MATCH_NONEXHAUSTIVE", "E_MATCH_UNREACHABLE_ARM",
        "E_MATCH_UNKNOWN_VARIANT", "E_MATCH_NOT_VARIANT"] then g.coverage else true := by
    intro v
    cases v <;> simp [keeps, Violation.code]
  simp only [Finding.repeats, Bool.and_eq_true, decide_eq_true_eq] at h
  rw [hcode, hcode, h.1.1]

/-- Whether a finding is new does not depend on those that are left out. -/
lemma report_session (f : Finding) (hf : g.keeps f.violation = true) :
    (g.session s).report (g.finding f) = g.session (s.report f) := by
  have hany : (g.findings s.findings).any (g.finding f).repeats = s.findings.any f.repeats := by
    rw [Bool.eq_iff_iff, any_eq_true, any_eq_true]
    constructor
    · rintro ⟨x, hx, hrep⟩
      obtain ⟨f', hf', rfl⟩ := mem_map.mp hx
      exact ⟨f', (mem_filter.mp hf').1, by rwa [repeats_finding] at hrep⟩
    · rintro ⟨f', hf', hrep⟩
      have hkeeps : g.keeps f'.violation = true := by rw [keeps_of_repeats hrep, hf]
      exact ⟨g.finding f', mem_map_of_mem (mem_filter.mpr ⟨hf', hkeeps⟩),
        by rwa [repeats_finding]⟩
  have hrepeated : ((g.session s).replay > 0 && (g.session s).findings.any (g.finding f).repeats) =
      (s.replay > 0 && s.findings.any f.repeats) := congrArg (decide (s.replay > 0) && ·) hany
  unfold Session.report
  rw [hrepeated, apply_ite g.session]
  congr 1
  simp [session, findings, hf]

lemma session_report_of_not_keeps (f : Finding) (hf : g.keeps f.violation = false) :
    g.session (s.report f) = g.session s := by
  unfold Session.report
  split
  · rfl
  · simp [session, findings, hf]

/-! ### Parts of a session -/

@[simp] lemma flow_session (s : Session) : (g.session s).flow = g.flow s.flow := rfl

@[simp] lemma scopes_session (s : Session) : (g.session s).scopes = s.scopes := rfl

@[simp] lemma span_session (s : Session) : (g.session s).span = g.span s.span := rfl

@[simp] lemma loans_session (s : Session) : (g.session s).loans = s.loans.map g.loan := rfl

@[simp] lemma withFlow_session (s : Session) (f : Flow) :
    (g.session s).withFlow (g.flow f) = g.session (s.withFlow f) := rfl

@[simp] lemma begin_session (s : Session) (loc : Span) :
    (g.session s).begin (g.span loc) = g.session (s.begin loc) := rfl

@[simp] lemma push_session (s : Session) (scope : Scope) :
    (g.session s).push scope = g.session (s.push scope) := rfl

@[simp] lemma snapshot_session (s : Session) (pos : Int) :
    (g.session s).snapshot pos = g.session (s.snapshot pos) := by
  simp only [Session.snapshot, session, map_append, map_singleton]
  rfl

@[simp] lemma mark_session (s : Session) (p : Place) (st : PlaceState) :
    (g.session s).mark (g.place p) st = g.session (s.mark p st) := by
  simp only [Session.mark, flow_session, mark_flow]
  rfl

@[simp] lemma attach_session (held : List Nat) (b : Binding) (since : Int) :
    (g.session s).attach (g.tree t) held (g.binding b) since =
      g.session (s.attach t held b since) := by
  simp only [Session.attach, session, map_map, Session.mk.injEq, true_and, and_true]
  refine map_congr_left fun l _ => ?_
  simp only [Function.comp_apply, attach_loan, apply_ite g.loan]
  rfl

@[simp] lemma recordDrop_session (d : Drop) :
    (g.session s).recordDrop d = g.session (s.recordDrop d) := by
  unfold Session.recordDrop
  rw [apply_ite g.session]
  rfl

@[simp] lemma drop_session (pos : Int) (b : Binding) :
    (g.session s).drop pos (g.binding b) = g.session (s.drop pos b) := by
  unfold Session.drop
  rw [flow_session, status_flow]
  cases s.flow.status b with
  | owned => exact recordDrop_session _
  | partiallyMoved fields => exact recordDrop_session _
  | movedOut => rfl
  | uninitialized => rfl

@[simp] lemma destroy_session (scope : Nat) (pos : Int) :
    (g.session s).destroy (g.tree t) scope pos = g.session (s.destroy t scope pos) := by
  rw [Session.destroy, Session.destroy, dropOrder_tree, foldl_map]
  exact foldl_hom g.session fun s b => drop_session pos b

@[simp] lemma close_session (scope : Nat) :
    (g.session s).close (g.tree t) scope = g.session (s.close t scope) := by
  have hforget : ((t.bindingsOf scope).map g.binding).foldl Flow.forget (g.flow s.flow) =
      g.flow ((t.bindingsOf scope).foldl Flow.forget s.flow) := by
    rw [foldl_map]
    exact foldl_hom g.flow fun f b => forget_flow f b
  simp only [Session.close, bindingsOf_tree, flow_session, hforget]
  rfl

/-! ### Loans of a session -/

lemma liveLoans_session (p : Place) (pos : Int) :
    (g.session s).liveLoans (g.place p) pos = (s.liveLoans p pos).map g.loan := by
  have hplace : ∀ l : Loan, (g.loan l).place.overlaps (g.place p) = l.place.overlaps p :=
    fun l => overlaps_place l.place p
  simp only [Session.liveLoans, loans_session, filter_map, Function.comp_def, activeAt_loan,
    hplace]

lemma conflict?_session (p : Place) (kind : LoanKind) (pos : Int) (renewed : Option Nat) :
    (g.session s).conflict? (g.place p) kind pos renewed =
      (s.conflict? p kind pos renewed).map g.loan := by
  simp only [Session.conflict?, liveLoans_session, find?_map]
  rfl

lemma sameLoan?_session (p : Place) (kind : LoanKind) (pos : Int) :
    (g.session s).sameLoan? (g.place p) kind pos = (s.sameLoan? p kind pos).map g.loan := by
  simp only [Session.sameLoan?, loans_session, find?_map, Function.comp_def, loan, place_inj]
  rfl

@[simp] lemma carriedBy_session (p : Place) (pos : Int) :
    (g.session s).carriedBy (g.tree t) (g.place p) pos = s.carriedBy t p pos := by
  simp only [Session.carriedBy, loans_session, filter_map, map_map, Function.comp_def,
    activeAt_loan, base_place, heldBy_loan]
  rfl

lemma grant_session (p : Place) (kind : LoanKind) (pos : Int) (span : Span) :
    (g.session s).grant (g.place p) kind pos (g.span span) =
      g.session (s.grant p kind pos span) := by
  simp only [Session.grant, session, map_append, map_singleton, length_map]
  rfl

/-! ### Accesses -/

variable (g) in
def access : Access → Access
  | .read p => .read (g.place p)
  | .move p => .move (g.place p)
  | .write p => .write (g.place p)
  | .lend p kind => .lend (g.place p) kind

variable {c : Context} {q : Program} {p : Place} {pos : Int} {span loc : Span}

lemma tree_context : (g.context q c).tree = g.tree c.tree := rfl

lemma typing_context : (g.context q c).typing = g.typing q c.typing := rfl

lemma tracksLoans_context : (g.context q c).tracksLoans = c.tracksLoans := rfl

lemma report_useFinding (r : Refusal) :
    (g.session s).report ((g.flow s.flow).useFinding (g.place p) pos (g.span span) (g.refusal r)) =
      g.session (s.report (s.flow.useFinding p pos span r)) := by
  have hfinding : (g.flow s.flow).useFinding (g.place p) pos (g.span span) (g.refusal r) =
      g.finding (s.flow.useFinding p pos span r) := by
    cases r with
    | uninitialized => rfl
    | moved cause =>
      simp only [Flow.useFinding, refusal, siteOf_flow, describe_place]
      rfl
  rw [hfinding]
  refine report_session _ ?_
  cases r <;> rfl

lemma noteRead_context : (g.context q c).noteRead (g.place p) pos (g.span span) (g.session s) =
    g.session (c.noteRead p pos span s) := by
  unfold noteRead
  rw [tracksLoans_context, conflict?_session]
  split
  · cases s.conflict? p .shared pos none with
    | none => rfl
    | some l => exact report_session (l.conflict p .shared pos span) rfl
  · rfl

/-- A rule that is switched off along with the findings it makes. -/
lemma report_switch (f : Finding) (on : Bool) {keep : Bool} (hf : g.keeps f.violation = keep) :
    (if on && keep then (g.session s).report (g.finding f) else g.session s) =
      g.session (if on then s.report f else s) := by
  cases on with
  | false => rfl
  | true =>
    cases keep with
    | true => exact report_session f hf
    | false => exact (session_report_of_not_keeps f hf).symm

lemma noteMove_context : (g.context q c).noteMove (g.place p) pos (g.span span) (g.session s) =
    g.session (c.noteMove p pos span s) := by
  have hswitch : ((g.context q c).tracksLoans && (g.context q c).options.reportMovesWhileBorrowed) =
      ((c.tracksLoans && c.options.reportMovesWhileBorrowed) && g.moves) := (Bool.and_assoc ..).symm
  unfold noteMove
  rw [conflict?_session, hswitch]
  cases s.conflict? p .exclusive pos none with
  | none => simp only [Option.map_none, ite_self]
  | some l =>
    exact report_switch ⟨pos, span, .moveWhileBorrowed p.base.name p.describe l.info⟩ _ rfl

lemma noteWrite_context : (g.context q c).noteWrite (g.place p) pos (g.span span) (g.session s) =
    g.session (c.noteWrite p pos span s) := by
  have hswitch :
      ((g.context q c).tracksLoans && (g.context q c).options.reportWritesWhileBorrowed) =
        ((c.tracksLoans && c.options.reportWritesWhileBorrowed) && g.writes) :=
    (Bool.and_assoc ..).symm
  unfold noteWrite
  rw [conflict?_session, hswitch]
  cases s.conflict? p .exclusive pos none with
  | none => simp only [Option.map_none, ite_self]
  | some l =>
    exact report_switch ⟨pos, span, .writeWhileBorrowed p.base.name p.describe l.info⟩ _ rfl

lemma noteMutability_context :
    (g.context q c).noteMutability (g.place p) pos (g.span span) (g.session s) =
      g.session (c.noteMutability p pos span s) := by
  unfold noteMutability
  rw [flow_session, baseUninit_flow, apply_ite g.session]
  congr 1
  exact report_session { pos, span, violation := .mutability p.base.name "assign" } rfl

lemma read_context : (g.context q c).read (g.place p) pos (g.span span) (g.session s) =
    g.session (c.read p pos span s) := by
  unfold Context.read
  rw [flow_session, refusal?_flow]
  cases s.flow.refusal? p with
  | none => exact noteRead_context
  | some r => exact report_useFinding r

lemma move_context : (g.context q c).move (g.place p) pos (g.span span) (g.session s) =
    g.session (c.move p pos span s) := by
  unfold move
  rw [flow_session, refusal?_flow]
  cases s.flow.refusal? p with
  | none =>
    simp only [Option.map_none, noteMove_context, flow_session]
    rw [show MoveSite.mk pos (g.span span) = g.site ⟨pos, span⟩ from rfl, moveOut_flow,
      withFlow_session]
  | some r => exact report_useFinding r

lemma write_context : (g.context q c).write (g.place p) pos (g.span span) (g.session s) =
    g.session (c.write p pos span s) := by
  unfold write
  rw [flow_session, writeRefusal?_flow]
  cases s.flow.writeRefusal? p with
  | none =>
    simp only [Option.map_none, noteMutability_context, noteWrite_context, flow_session,
      refill_flow, withFlow_session]
  | some r => exact report_useFinding r

lemma grantLoan_context (kind : LoanKind) (behind : Option Place) :
    (g.context q c).grantLoan (g.place p) kind pos (g.span span) (behind.map g.place)
        (g.session s) = Prod.map id g.session (c.grantLoan p kind pos span behind s) := by
  unfold grantLoan
  rw [sameLoan?_session]
  cases s.sameLoan? p kind pos with
  | some l => cases behind <;> simp [tree_context, loan]
  | none => cases behind <;> simp [tree_context, grant_session]

lemma report_borrowFinding (r : Refusal) :
    (g.session s).report
        ((g.flow s.flow).borrowFinding (g.place p) pos (g.span span) (g.refusal r)) =
      g.session (s.report (s.flow.borrowFinding p pos span r)) := by
  have hfinding : (g.flow s.flow).borrowFinding (g.place p) pos (g.span span) (g.refusal r) =
      g.finding (s.flow.borrowFinding p pos span r) := by
    cases r with
    | uninitialized => rfl
    | moved cause =>
      simp only [Flow.borrowFinding, refusal, siteOf_flow, describe_place]
      rfl
  rw [hfinding]
  refine report_session _ ?_
  cases r <;> rfl

variable (h : g.OnContext c q)

include h

/-- A loan is granted or refused as before. -/
lemma lend_context (kind : LoanKind) :
    (g.context q c).lend (g.place p) kind pos (g.span span) (g.session s) =
      Prod.map id g.session <$> c.lend p kind pos span s := by
  have hmutability : (g.context q c).options.checkMutability = c.options.checkMutability := rfl
  have hid : ∀ l? : Option Loan, (l?.map g.loan).map (·.id) = l?.map (·.id) := by
    intro l?
    cases l? <;> rfl
  unfold lend
  rw [tracksLoans_context, flow_session, refusal?_flow]
  cases c.tracksLoans with
  | false => rfl
  | true =>
    cases s.flow.refusal? p with
    | some r => exact congrArg (fun s => Except.ok ([], s)) (report_borrowFinding r)
    | none =>
      simp only [Bool.not_true, Bool.false_eq_true, if_false, Option.map_none]
      rw [typing_context, refPrefix?_typing h.typing]
      refine bind_map fun behind => ?_
      rw [hmutability, Option.isNone_map, sameLoan?_session, hid, conflict?_session,
        apply_ite (_ <$> ·)]
      congr 1
      · exact congrArg (fun s => Except.ok ([], s))
          (report_session { pos, span, violation := .mutability p.base.name "borrow" } rfl)
      · cases s.conflict? p kind pos ((s.sameLoan? p kind pos).map (·.id)) with
        | some l =>
          exact congrArg (fun s => Except.ok ([], s))
            (report_session (l.conflict p kind pos span) rfl)
        | none => exact congrArg Except.ok (grantLoan_context kind behind)

lemma access_context (a : Access) :
    (g.context q c).access pos (g.span span) (g.session s) (g.access a) =
      Prod.map id g.session <$> c.access pos span s a := by
  cases a with
  | read p => exact congrArg (fun s => Except.ok ([], s)) read_context
  | move p => exact congrArg (fun s => Except.ok ([], s)) move_context
  | write p => exact congrArg (fun s => Except.ok ([], s)) write_context
  | lend p kind => exact lend_context h kind

/-! ### Requests -/

variable (g) in
def request : Request → Request
  | .place demand p span kept => .place demand (g.place p) (g.span span) kept
  | .fail fault => .fail fault

lemma consumption_context :
    (g.context q c).consumption (g.place p) = g.access <$> c.consumption p := by
  rw [consumption, consumption, typing_context, refPrefix?_typing h.typing]
  refine bind_map fun behind => ?_
  cases behind <;> rfl

lemma demanded_context (demand : Demand) :
    (g.context q c).demanded (g.place p) demand = g.access <$> c.demanded p demand := by
  cases demand with
  | take =>
    rw [demanded, demanded, typing_context, placeType_typing h.typing]
    refine bind_map fun ty => ?_
    rw [(onTable h.typing).tyIsCopy]
    refine bind_same fun copied => ?_
    cases copied with
    | true => rfl
    | false => exact consumption_context h
  | inspect => rfl
  | lend kind => rfl
  | pass kind =>
    rw [demanded, demanded, typing_context, placeType_typing h.typing]
    refine bind_map fun ty => ?_
    rw [(onTable h.typing).tyIsRef]
    refine bind_same fun isRef => ?_
    cases isRef <;> rfl

omit h in
lemma carried_context :
    (g.context q c).carried (g.place p) pos (g.session s) = c.carried p pos s := by
  unfold carried
  rw [tree_context, carriedBy_session]
  rfl

lemma fulfil_context (demand : Demand) :
    (g.context q c).fulfil (g.place p) pos (g.span span) (g.session s) demand =
      Prod.map id g.session <$> c.fulfil p pos span s demand := by
  rw [fulfil, fulfil, demanded_context h]
  refine bind_map fun a => ?_
  rw [access_context h]
  refine bind_map fun k => congrArg Except.ok ?_
  obtain ⟨held, m⟩ := k
  simp only [Prod.map_apply, carried_context, id_eq]

lemma perform_context (r : Request) :
    (g.context q c).perform pos (g.session s) (g.request r) =
      Prod.map id g.session <$> c.perform pos s r := by
  cases r with
  | fail fault => rfl
  | place demand p span kept =>
    rw [request, perform, perform, fulfil_context h]
    exact bind_map fun k => rfl

lemma performAll_context (rs : List Request) :
    (g.context q c).performAll pos (g.session s) (rs.map g.request) =
      Prod.map id g.session <$> c.performAll pos s rs := by
  induction rs generalizing s with
  | nil => rfl
  | cons r rest ih =>
    rw [map_cons, performAll, performAll, perform_context h]
    refine bind_map fun k => ?_
    obtain ⟨held, m⟩ := k
    rw [Prod.map_apply]
    dsimp only
    rw [ih]
    exact bind_map fun k' => rfl

/-- What an evaluation looks up in the guise. -/
structure OnScope (g : Guise) (v v' : EvalScope) : Prop where
  signature? : ∀ callee, v'.signature? callee = Option.map g.signature <$> v.signature? callee
  meaning : ∀ name, v'.meaning name = (v.meaning name).map g.binding
  span : v'.span = g.span v.span

omit h

section Requests

variable {v v' : EvalScope}

lemma inspectOr_expr (h : g.OnScope v v') (e : Expr) (rs : List Request) :
    (g.expr e).inspectOr v' (rs.map g.request) = (e.inspectOr v rs).map g.request := by
  rw [Expr.inspectOr, Expr.inspectOr, place?_expr h.meaning, loc_expr, h.span, ← g.span_orElse]
  cases e.place? v.meaning <;> rfl

lemma takeOr_expr (h : g.OnScope v v') (kept : Bool) (e : Expr) (rs : List Request) :
    (g.expr e).takeOr v' kept (rs.map g.request) = (e.takeOr v kept rs).map g.request := by
  rw [Expr.takeOr, Expr.takeOr, place?_expr h.meaning, loc_expr, h.span, ← g.span_orElse]
  cases e.place? v.meaning <;> rfl

mutual

lemma requests_expr (h : g.OnScope v v') (kept : Bool) (e : Expr) :
    (g.expr e).requests v' kept = (e.requests v kept).map g.request := by
  match e with
  | .absent | .literal _ _ | .foreign _ => rfl
  | .var name loc =>
    rw [expr, Expr.requests, Expr.requests]
    exact takeOr_expr h kept (.var name loc) []
  | .field e name loc =>
    rw [expr, Expr.requests, Expr.requests, requests_expr h kept e]
    exact takeOr_expr h kept (.field e name loc) _
  | .deref e loc =>
    rw [expr, Expr.requests, Expr.requests, requests_expr h kept e]
    exact takeOr_expr h kept (.deref e loc) _
  | .borrow e mutable loc =>
    rw [expr, Expr.requests, Expr.requests, place?_expr h.meaning, requests_expr h false e, h.span,
      ← g.span_orElse]
    cases e.place? v.meaning <;> rfl
  | .call callee args _ =>
    rw [expr, Expr.requests, Expr.requests, h.signature?]
    cases v.signature? callee with
    | error fault => rfl
    | ok sig =>
      have hmodes : ((sig.map g.signature).map (·.modeFor)).getD (fun _ => .byValue) =
          (sig.map (·.modeFor)).getD fun _ => .byValue := by
        cases sig <;> rfl
      exact (congrArg (Expr.argRequests v' · 0 (g.exprs args)) hmodes).trans
        (argRequests_exprs h _ 0 args)
  | .binary _ l r _ =>
    rw [expr, Expr.requests, Expr.requests, requests_expr h false l, requests_expr h false r,
      inspectOr_expr h, inspectOr_expr h, map_append]
  | .construct _ _ args _ => exact allRequests_exprs h kept args

lemma allRequests_exprs (h : g.OnScope v v') (kept : Bool) (es : List Expr) :
    Expr.allRequests v' kept (g.exprs es) = (Expr.allRequests v kept es).map g.request := by
  match es with
  | [] => rfl
  | e :: rest =>
    rw [exprs, Expr.allRequests, Expr.allRequests, requests_expr h kept e,
      allRequests_exprs h kept rest, map_append]

lemma argRequests_exprs (h : g.OnScope v v') (modeFor : Nat → PassMode) (i : Nat) (es : List Expr) :
    Expr.argRequests v' modeFor i (g.exprs es) =
      (Expr.argRequests v modeFor i es).map g.request := by
  match es with
  | [] => rfl
  | e :: rest =>
    rw [exprs, Expr.argRequests, Expr.argRequests, place?_expr h.meaning, loc_expr, h.span,
      ← g.span_orElse, requests_expr h false e, argRequests_exprs h modeFor (i + 1) rest,
      map_append]
    congr 1
    cases (modeFor i).loanKind? <;> cases e.place? v.meaning <;> rfl

end

lemma readRequests_expr (h : g.OnScope v v') (e : Expr) :
    (g.expr e).readRequests v' = (e.readRequests v).map g.request := by
  rw [Expr.readRequests, Expr.readRequests, requests_expr h, inspectOr_expr h]

end Requests

/-! ### Rules -/

lemma meaning_context (pos : Int) (name : String) :
    (g.context q c).meaning pos name = (c.meaning pos name).map g.binding := resolve_tree pos name

include h

lemma onScope (pos : Int) (loc : Span) :
    g.OnScope (c.evalScope pos loc) ((g.context q c).evalScope pos (g.span loc)) :=
  ⟨h.program.signature?, meaning_context pos, rfl⟩

lemma evaluate_context (e : Expr) :
    (g.context q c).evaluate pos (g.span loc) (g.expr e) (g.session s) =
      Prod.map id g.session <$> c.evaluate pos loc e s := by
  rw [evaluate, evaluate, requests_expr (onScope h pos loc), performAll_context h]

lemma inspect_context (e : Expr) :
    (g.context q c).inspect pos (g.span loc) (g.expr e) (g.session s) =
      g.session <$> c.inspect pos loc e s := by
  rw [inspect, inspect, readRequests_expr (onScope h pos loc), performAll_context h]
  exact bind_map fun k => rfl

omit h in
lemma introduce_context (state : PlaceState) (held : List Nat) :
    (g.context q c).introduce pos state held (g.session s) =
      g.session (c.introduce pos state held s) := by
  rw [introduce, introduce, tree_context,
    declaredBy_tree, foldl_map]
  refine foldl_hom g.session fun s b => ?_
  rw [ofBinding_binding, mark_session, attach_session]

lemma declare_context (value : Expr) :
    (g.context q c).declare pos (g.expr value) (g.span loc) (g.session s) =
      g.session <$> c.declare pos value loc s := by
  rw [declare, declare, evaluate_context h, isPresent_expr]
  exact bind_map fun k => congrArg Except.ok (introduce_context _ k.1)

lemma storage_context : (g.context q c).storage (g.place p) = g.access <$> c.storage p := by
  rw [storage, storage, typing_context,
    refPrefix?_typing h.typing]
  refine bind_map fun behind => ?_
  cases behind <;> rfl

lemma store_context (held : List Nat) :
    (g.context q c).store pos (g.span span) (g.place p) held (g.session s) =
      g.session <$> c.store pos span p held s := by
  rw [store, store, storage_context h]
  refine bind_map fun a => ?_
  rw [access_context h]
  refine bind_map fun k => congrArg Except.ok ?_
  have hwrite : g.access a = .write (g.place p) ↔ a = .write p := by
    cases a <;> simp [access]
  obtain ⟨more, m⟩ := k
  simp only [hwrite, base_place, apply_ite g.session]
  rw [tree_context, attach_session]

lemma assign_context (target value : Expr) :
    (g.context q c).assign pos (g.expr target) (g.expr value) (g.span loc) (g.session s) =
      g.session <$> c.assign pos target value loc s := by
  rw [assign, assign, evaluate_context h, place?_expr (meaning_context pos), loc_expr,
    ← g.span_orElse]
  refine bind_map fun k => ?_
  cases target.place? (c.meaning pos) with
  | none => rfl
  | some p => exact store_context h k.1

/-! ### Loans that outlive their source -/

omit h in
lemma reportDangling_context (l : Loan) (viaReturn : Bool) :
    (g.context q c).reportDangling (g.loan l) pos (g.span span) viaReturn (g.session s) =
      g.session (c.reportDangling l pos span viaReturn s) :=
  report_session (s := { s with dangling := s.dangling ++ [l.id] })
    { pos, span, violation := .danglingBorrow l.info (c.tree.ownerStop l.place.base) viaReturn } rfl

lemma escape_context (ids : List Nat) :
    (g.context q c).escape pos (g.span span) ids (g.session s) =
      g.session <$> c.escape pos span ids s := by
  induction ids generalizing s with
  | nil => rfl
  | cons id rest ih =>
    rw [escape, escape, loans_session, getElem?_map]
    cases s.loans[id]? with
    | none => exact ih
    | some l =>
      simp only [Option.map_some]
      rw [show (g.loan l).place = g.place l.place from rfl,
        typing_context, refPrefix?_typing h.typing]
      refine bind_map fun behind => ?_
      cases behind with
      | some r => exact ih
      | none =>
        simp only [Option.map_none]
        rw [reportDangling_context, ih]

omit h in
lemma outlives_context (scope : Scope) (l : Loan) :
    (g.context q c).outlives scope (g.loan l) = c.outlives scope l := by
  rw [outlives, outlives, show (g.loan l).holders = l.holders.map g.holder from rfl, any_map]
  rfl

lemma danglesAt_context (scope : Scope) (dangling : List Nat) (l : Loan) :
    (g.context q c).danglesAt scope dangling (g.loan l) = c.danglesAt scope dangling l := by
  rw [danglesAt, danglesAt, show (g.loan l).place = g.place l.place from rfl,
    typing_context, refPrefix?_typing h.typing,
    outlives_context]
  congr 1
  cases c.typing.refPrefix? l.place with
  | error fault => rfl
  | ok behind => cases behind <;> rfl

lemma checkDangling_context (scope : Scope) (ls : List Loan) :
    (g.context q c).checkDangling scope (ls.map g.loan) (g.session s) =
      g.session <$> c.checkDangling scope ls s := by
  induction ls generalizing s with
  | nil => rfl
  | cons l rest ih =>
    rw [map_cons, checkDangling, checkDangling, danglesAt_context h]
    refine bind_same fun dangles => ?_
    cases dangles with
    | false => exact ih
    | true =>
      simp only [if_true]
      rw [show (g.loan l).span = g.span l.span from rfl, reportDangling_context, ih]

/-! ### Ends of scopes -/

lemma exitScope_context (scope : Scope) :
    (g.context q c).exitScope scope (g.session s) = g.session <$> c.exitScope scope s := by
  rw [exitScope, exitScope, flow_session, returned_flow, tree_context]
  split
  · exact congrArg Except.ok (close_session scope.id)
  · rw [destroy_session]
    dsimp only
    rw [loans_session, checkDangling_context h]
    exact bind_map fun m => congrArg Except.ok (close_session scope.id)

omit h in
lemma leaveFunction_context :
    (g.context q c).leaveFunction pos (g.session s) = g.session (c.leaveFunction pos s) := by
  have hdestroy :
      s.scopes.foldl (fun s scope => s.destroy (g.context q c).tree scope.id pos) (g.session s) =
      g.session (s.scopes.foldl (fun s scope => s.destroy c.tree scope.id pos) s) :=
    foldl_hom g.session fun s scope => destroy_session scope.id pos
  rw [leaveFunction, leaveFunction, scopes_session, hdestroy]
  rfl

lemma giveBack_context (value : Expr) :
    (g.context q c).giveBack pos (g.expr value) (g.span loc) (g.session s) =
      g.session <$> c.giveBack pos value loc s := by
  rw [giveBack, giveBack, isPresent_expr, evaluate_context h, loc_expr, ← g.span_orElse]
  split
  · refine bind_map fun k => ?_
    obtain ⟨held, m⟩ := k
    rw [Prod.map_apply]
    dsimp only
    rw [id_eq, escape_context h]
    exact bind_map fun m => congrArg Except.ok leaveFunction_context
  · exact congrArg Except.ok leaveFunction_context

/-! ### Selections -/

lemma scrutinize_context (e : Expr) :
    (g.context q c).scrutinize pos (g.span loc) (g.expr e) (g.session s) =
      Prod.map (Option.map g.place) g.session <$> c.scrutinize pos loc e s := by
  rw [scrutinize, scrutinize, place?_expr (meaning_context pos), evaluate_context h,
    loc_expr, ← g.span_orElse]
  cases e.place? (c.meaning pos) with
  | none => exact bind_map fun k => rfl
  | some p =>
    refine congrArg Except.ok ?_
    rw [read_context, flow_session, refusal?_flow, Option.isNone_map]
    simp only [Prod.map_apply, apply_ite (Option.map g.place)]
    rfl

lemma takesAny_context (types : List Ty) :
    (g.context q c).takesAny (types.map g.ty) = c.takesAny types := by
  induction types with
  | nil => rfl
  | cons ty rest ih =>
    rw [map_cons, takesAny, takesAny, ih, isLocalRef_ty]
    rw [show (g.context q c).typing.table.tyIsCopy (g.ty ty) = c.typing.table.tyIsCopy ty from
      (onTable h.typing).tyIsCopy ty]

lemma shareLoans_context (byRef : Bool) (binders : List (Binding × Ty)) (scrutinee : Option Place) :
    (g.context q c).shareLoans pos (g.span span) byRef (binders.map (Prod.map g.binding g.ty))
      (scrutinee.map g.place) (g.session s) =
      g.session <$> c.shareLoans pos span byRef binders scrutinee s := by
  have hrefs : ((binders.map (Prod.map g.binding g.ty)).filter (·.2.isLocalRef)).map (·.1) =
      ((binders.filter (·.2.isLocalRef)).map (·.1)).map g.binding := by
    simp only [filter_map, map_map, Function.comp_def, Prod.map_fst, Prod.map_snd,
      isLocalRef_ty]
  have hattach : ∀ (bs : List Binding) (held : List Nat) (m : Session),
      (bs.map g.binding).foldl (fun s b => s.attach (g.context q c).tree held b pos) (g.session m) =
        g.session (bs.foldl (fun s b => s.attach c.tree held b pos) m) := by
    intro bs held m
    rw [foldl_map]
    exact foldl_hom g.session fun s b => attach_session held b pos
  unfold shareLoans
  rw [hrefs]
  generalize (binders.filter (·.2.isLocalRef)).map (·.1) = refs
  cases scrutinee with
  | none => rfl
  | some p =>
    simp only [Option.map_some, isEmpty_map]
    rw [tracksLoans_context, apply_ite (g.session <$> ·)]
    congr 1
    cases byRef with
    | true =>
      simp only [if_true]
      rw [lend_context h]
      exact bind_map fun k => congrArg Except.ok (hattach refs k.1 k.2)
    | false =>
      refine congrArg Except.ok ?_
      rw [carried_context]
      exact hattach refs _ s

lemma armTypes_context (sel : Selection) (a : Arm) :
    (g.context q c).armTypes (g.selection sel) (g.arm a) = map g.ty <$> c.armTypes sel a := by
  rw [armTypes, armTypes, typing_context]
  simp only [selection]
  rw [scrutineeType_typing h.typing (meaning_context sel.label)]
  refine bind_map fun ty => ?_
  rw [binderTypes_typing h.typing]
  exact bind_map fun types => congrArg Except.ok (namedTypes_arm a types)

omit h in
lemma fillBinders_session (binders : List (Binding × Ty)) :
    fillBinders (binders.map (Prod.map g.binding g.ty)) (g.session s) =
      g.session (fillBinders binders s) := by
  rw [fillBinders, fillBinders, foldl_map]
  exact foldl_hom g.session fun s b => mark_session s (.ofBinding b.1) .owned

lemma takeApart_context (scrutinee : Option Place) (takes : Bool) :
    (g.context q c).takeApart pos (g.span span) (scrutinee.map g.place) takes (g.session s) =
      g.session <$> c.takeApart pos span scrutinee takes s := by
  cases takes with
  | false => cases scrutinee <;> rfl
  | true =>
    cases scrutinee with
    | none => rfl
    | some p =>
      rw [Option.map_some, takeApart, takeApart, consumption_context h]
      refine bind_map fun a => ?_
      rw [access_context h]
      exact bind_map fun k => rfl

lemma bindArm_context (sel : Selection) (scrutinee : Option Place) (a : Arm) :
    (g.context q c).bindArm (g.selection sel) (scrutinee.map g.place) pos (g.arm a) (g.session s) =
      g.session <$> c.bindArm sel scrutinee pos a s := by
  rw [bindArm, bindArm, armTypes_context h, loc_arm, span_session, ← g.span_orElse, byRef_arm]
  refine bind_map fun types => ?_
  rw [takesAny_context h, tree_context, declaredBy_tree,
    zip_map]
  dsimp only
  rw [fillBinders_session]
  refine bind_same fun takes => ?_
  rw [takeApart_context h]
  exact bind_map fun m => shareLoans_context h a.byRef _ scrutinee

/-! ### Walks -/

omit h

lemma replayLoop_session {again again' : Session → Except Fault Session}
    (h : ∀ s, again' (g.session s) = g.session <$> again s) (n : Nat) (joined : Flow) :
    replayLoop again' n (g.flow joined) (g.session s) =
      g.session <$> replayLoop again n joined s := by
  induction n generalizing joined s with
  | zero => rfl
  | succ n ih =>
    rw [replayLoop, replayLoop]
    have hround := h { s with flow := joined, replay := s.replay + 1 }
    refine .trans (congrArg (· >>= _) hround) (bind_map fun m => ?_)
    rw [flow_session, merge_flow]
    exact ih (s := { m with replay := s.replay }) (joined.merge m.flow)

mutual

/-- A statement is walked as before. -/
lemma walkStmt_context (h : g.OnContext c q) (p : Int) (stmt : Stmt) (s : Session) :
    (g.context q c).walkStmt p (g.stmt stmt) (g.session s) = g.session <$> c.walkStmt p stmt s := by
  match stmt with
  | .block b =>
    rw [Guise.stmt, walkStmt, walkStmt, walkBlock_context h p b s]
    exact bind_map fun m => congrArg Except.ok (snapshot_session m p)
  | .declare _ _ value _ loc =>
    rw [Guise.stmt, walkStmt, walkStmt, begin_session, declare_context h]
    exact bind_map fun m => congrArg Except.ok (snapshot_session m p)
  | .assign target value loc =>
    rw [Guise.stmt, walkStmt, walkStmt, begin_session, assign_context h]
    exact bind_map fun m => congrArg Except.ok (snapshot_session m p)
  | .evaluate value loc =>
    rw [Guise.stmt, walkStmt, walkStmt, begin_session, evaluate_context h]
    exact bind_map fun k => congrArg Except.ok (snapshot_session k.2 p)
  | .ret value loc =>
    rw [Guise.stmt, walkStmt, walkStmt, begin_session, giveBack_context h]
    exact bind_map fun m => congrArg Except.ok (snapshot_session m p)
  | .branch test t e loc =>
    rw [Guise.stmt, walkStmt, walkStmt, begin_session, inspect_context h, width_block]
    refine bind_map fun m => ?_
    rw [walkBlock_context h (p + 1) t m]
    refine bind_map fun m₁ => ?_
    rw [flow_session, withFlow_session, walkElse_context h (p + 1 + t.width) e (m₁.withFlow m.flow)]
    refine bind_map fun m₂ => congrArg Except.ok ?_
    rw [flow_session, flow_session, merge_flow, withFlow_session, snapshot_session]
  | .loop test body loc =>
    rw [Guise.stmt, walkStmt, walkStmt, begin_session, inspect_context h]
    refine bind_map fun m => ?_
    rw [walkBlock_context h (p + 1) body m]
    refine bind_map fun m₁ => ?_
    rw [flow_session, flow_session, merge_flow]
    refine .trans (congrArg (· >>= _) (replayLoop_session ?_ c.replays _))
      (bind_map fun m₂ => congrArg Except.ok (snapshot_session m₂ p))
    intro u
    rw [begin_session, inspect_context h]
    exact bind_map fun u' => walkBlock_context h (p + 1) body u'
  | .select scrutinee arms type loc =>
    rw [Guise.stmt, walkStmt, walkStmt, begin_session, scrutinize_context h]
    refine bind_map fun k => ?_
    obtain ⟨place, m⟩ := k
    rw [Prod.map_apply]
    dsimp only
    have harms := walkArms_context h ⟨scrutinee, type, p⟩ place m.flow (p + 1) arms none m
    refine .trans (congrArg (· >>= _) harms) ?_
    exact bind_map fun m' => congrArg Except.ok (snapshot_session m' p)
  | .foreign kind => rfl

lemma walkBlock_context (h : g.OnContext c q) (p : Int) (b : Block) (s : Session) :
    (g.context q c).walkBlock p (g.block b) (g.session s) = g.session <$> c.walkBlock p b s := by
  match b with
  | .mk stmts l =>
    rw [block, walkBlock, walkBlock]
    refine bind_same fun scope => ?_
    rw [push_session, walkStmts_context h (p + 1) stmts (s.push scope)]
    exact bind_map fun m => exitScope_context h scope

lemma walkElse_context (h : g.OnContext c q) (p : Int) (b : Option Block) (s : Session) :
    (g.context q c).walkElse p (g.blockOpt b) (g.session s) = g.session <$> c.walkElse p b s := by
  match b with
  | none => rfl
  | some b =>
    rw [blockOpt, walkElse, walkElse]
    exact walkBlock_context h p b s

lemma walkStmts_context (h : g.OnContext c q) (p : Int) (ss : List Stmt) (s : Session) :
    (g.context q c).walkStmts p (g.stmts ss) (g.session s) = g.session <$> c.walkStmts p ss s := by
  match ss with
  | [] => rfl
  | stmt :: rest =>
    rw [Guise.stmts, walkStmts, walkStmts, flow_session, returned_flow,
      apply_ite (g.session <$> ·), walkStmt_context h p stmt s, width_stmt]
    congr 1
    exact bind_map fun m => walkStmts_context h (p + stmt.width) rest m

lemma walkArms_context (h : g.OnContext c q) (sel : Selection) (place : Option Place) (entry : Flow)
    (p : Int) (as : List Arm) (joined : Option Flow) (s : Session) :
    (g.context q c).walkArms (g.selection sel) (place.map g.place) (g.flow entry) p (g.arms as)
      (joined.map g.flow) (g.session s) =
      g.session <$> c.walkArms sel place entry p as joined s := by
  match as with
  | [] => cases joined <;> rfl
  | .mk v (.mk stmts l) binders byRef loc :: rest =>
    rw [Guise.arms, block, walkArms, walkArms, widthAll_stmts]
    refine bind_same fun scope => ?_
    rw [withFlow_session, push_session]
    have hbind : (g.context q c).bindArm (g.selection sel) (place.map g.place) (p + 1)
        (g.arm (.mk v (.mk stmts l) binders byRef loc))
          (g.session ((s.withFlow entry).push scope)) =
        g.session <$> c.bindArm sel place (p + 1) (.mk v (.mk stmts l) binders byRef loc)
          ((s.withFlow entry).push scope) :=
      bindArm_context h sel place _
    refine .trans (congrArg (· >>= _) hbind) (bind_map fun m => ?_)
    rw [walkStmts_context h (p + 2) stmts m]
    refine bind_map fun m₁ => ?_
    rw [exitScope_context h]
    refine bind_map fun m₂ => ?_
    have hrest := fun joined =>
      walkArms_context h sel place entry (p + 3 + Stmt.widthAll stmts) rest (some joined) m₂
    cases joined with
    | none => exact hrest m₂.flow
    | some f =>
      dsimp only [Option.map_some]
      rw [flow_session, merge_flow]
      exact hrest (f.merge m₂.flow)

end

lemma start_context (root : Scope) : (g.context q c).start root = g.session (c.start root) := by
  have hparams : (g.context q c).tree.bindings.filter (·.isParam) =
      (c.tree.bindings.filter (·.isParam)).map g.binding := by
    simp only [context, tree, filter_map]
    rfl
  have hempty : g.session { scopes := [root] } = { scopes := [root] } := by
    simp only [session, g.span_unknown]
    rfl
  rw [start, start, hparams, foldl_map, ← foldl_hom g.session, hempty]
  exact fun s b => mark_session s (.ofBinding b) .owned

theorem run_context (h : g.OnContext c q) : (g.context q c).run = g.session <$> c.run := by
  have hbody : (g.context q c).function.body.stmts = g.stmts c.function.body.stmts :=
    stmts_block c.function.body
  have hfirst : (g.context q c).function.bodyStart = c.function.bodyStart :=
    bodyStart_function c.function
  rw [run, run, hbody, hfirst]
  refine bind_same fun root => ?_
  rw [start_context, walkStmts_context h]
  exact bind_map fun m => exitScope_context h root

end Guise

end Ownership
