import Ownership.Report
import Ownership.Proofs.Checker.Requests
import Ownership.Proofs.Control.Layout
import Ownership.Proofs.Control.Walk
import Ownership.Proofs.Types.Typing

/-!
# Which faults stop a walk

If the types that a walk comes across, the scopes that it enters and the places that it assigns to
lead to allowed faults only, then so does the walk, and so does the check of its selections.
-/

namespace Ownership

open List

variable {P : Fault → Prop}

/-! ### Requests -/

/-- Whether a request breaks down in an allowed way, if it does. -/
def Request.Allowed (P : Fault → Prop) : Request → Prop
  | place .. => True
  | fail fault => P fault

/-- The requests of something of a known kind break down in allowed ways only. -/
lemma Request.Of.allowed {s : EvalScope} {kept : Bool} {names : List String} {known : Prop}
    {r : Request} (h : r.Of s kept names known)
    (hs : ∀ callee, Yields P (s.signature? callee) fun _ => True)
    (hknown : known) : r.Allowed P := by
  cases h with
  | place => exact trivial
  | @callee callee fault hf => exact (hs callee).of_error hf
  | foreign h => exact absurd hknown h

/-! ### Rules -/

def Node.target? : Node → Option Expr
  | stmt (.assign target _ _) => some target
  | _ => none

/-- Whether what a walk meets in a stream leads to allowed faults only. -/
structure Context.Prepared (c : Context) (P : Fault → Prop) (es : List Event) : Prop where
  typing : c.typing.Allows P
  program : c.typing.program = c.program
  scope : ∀ e ∈ es, e.kind = .enter → ∀ kind, Yields P (c.tree.scopeOf e.label kind) fun _ => True
  node : ∀ e ∈ es, e.kind = .step → e.node.Allowed c.typing.table P
  target : ∀ e ∈ es, e.kind = .step → ∀ target, e.node.target? = some target →
    target.place? (c.tree.resolve e.label) = none → P (.notAPlace e.pos)

namespace Context

namespace Prepared

variable {c : Context} {es : List Event} {pos : Int} {span loc : Span} {s : Session}
  (h : c.Prepared P es) {e value : Expr} {sel : Selection} {a : Arm}

include h

lemma yields_signature? (callee : String) :
    Yields P (c.program.signature? callee) fun _ => True := by
  rw [← h.program]
  exact (h.typing.program.yields_signature? callee).mono fun _ _ => trivial

lemma yields_lend (p : Place) (kind : LoanKind) :
    Yields P (c.lend p kind pos span s) fun _ => True := by
  rw [lend]
  split
  · exact trivial
  · split
    · exact trivial
    · apply (h.typing.yields_refPrefix? p).bind
      intro behind _
      split
      · exact trivial
      · split
        · exact trivial
        · exact trivial

lemma yields_access (a : Access) : Yields P (c.access pos span s a) fun _ => True := by
  cases a with
  | lend p kind => exact h.yields_lend p kind
  | _ => exact trivial

lemma yields_consumption (p : Place) : Yields P (c.consumption p) fun _ => True := by
  apply (h.typing.yields_refPrefix? p).bind
  intro behind _
  split
  · exact trivial
  · exact trivial

lemma yields_demanded (p : Place) (demand : Demand) :
    Yields P (c.demanded p demand) fun _ => True := by
  cases demand with
  | take =>
    apply (h.typing.yields_placeType p).bind
    intro ty hk
    apply (h.typing.table.yields_tyIsCopy hk).bind
    intro copies _
    split
    · exact trivial
    · exact h.yields_consumption p
  | inspect => exact trivial
  | lend kind => exact trivial
  | pass kind =>
    apply (h.typing.yields_placeType p).bind
    intro ty hk
    apply (TypeTable.Allows.yields_tyIsRef hk).bind
    intro isRef _
    split
    · exact trivial
    · exact trivial

lemma yields_performAll {rs : List Request} (hrs : ∀ r ∈ rs, r.Allowed P) :
    Yields P (c.performAll pos s rs) fun _ => True := by
  induction rs generalizing s with
  | nil => exact trivial
  | cons r rest ih =>
    have hr : Yields P (c.perform pos s r) fun _ => True := by
      cases r with
      | fail fault => exact hrs _ mem_cons_self
      | place demand p span kept =>
        apply Yields.bind (Q := fun _ => True)
        · apply (h.yields_demanded p demand).bind
          intro a _
          exact (h.yields_access a).bind fun _ _ => trivial
        · exact fun _ _ => trivial
    apply hr.bind
    intro _ _
    apply (ih fun r' hr' => hrs r' (mem_cons_of_mem _ hr')).bind
    exact fun _ _ => trivial

lemma yields_evaluate (he : e.firstForeign? = none) :
    Yields P (c.evaluate pos loc e s) fun _ => True :=
  h.yields_performAll fun r hr => (Expr.of_requests true e r hr).allowed h.yields_signature? he

lemma yields_inspect (he : e.firstForeign? = none) :
    Yields P (c.inspect pos loc e s) fun _ => True := by
  have hr : ∀ r ∈ e.readRequests (c.evalScope pos loc), r.Allowed P :=
    fun r hr => (Expr.of_readRequests e r hr).allowed h.yields_signature? he
  exact (h.yields_performAll hr).bind fun _ _ => trivial

lemma yields_declare (he : value.firstForeign? = none) :
    Yields P (c.declare pos value loc s) fun _ => True :=
  (h.yields_evaluate he).bind fun _ _ => trivial

lemma yields_assign {target : Expr} (he : value.firstForeign? = none)
    (hp : target.place? (c.meaning pos) = none → P (.notAPlace pos)) :
    Yields P (c.assign pos target value loc s) fun _ => True := by
  apply (h.yields_evaluate he).bind
  rintro ⟨held, s'⟩ -
  dsimp only
  split
  · rename_i hn
    exact hp hn
  · rename_i p _
    have hstore : Yields P (c.storage p) fun _ => True := by
      apply (h.typing.yields_refPrefix? p).bind
      intro behind _
      split
      · exact trivial
      · exact trivial
    apply hstore.bind
    intro a _
    exact (h.yields_access a).bind fun _ _ => trivial

lemma yields_escape (ids : List Nat) : Yields P (c.escape pos span ids s) fun _ => True := by
  induction ids generalizing s with
  | nil => exact trivial
  | cons id rest ih =>
    rw [escape]
    split
    · exact ih
    · rename_i l _
      apply (h.typing.yields_refPrefix? l.place).bind
      intro behind _
      split
      · exact ih
      · exact ih

lemma yields_checkDangling (scope : Scope) (ls : List Loan) :
    Yields P (c.checkDangling scope ls s) fun _ => True := by
  induction ls generalizing s with
  | nil => exact trivial
  | cons l rest ih =>
    have hl : Yields P (c.danglesAt scope s.dangling l) fun _ => True := by
      rw [danglesAt]
      split
      · exact trivial
      · apply (h.typing.yields_refPrefix? l.place).bind
        intro behind _
        split
        · exact trivial
        · exact trivial
    apply hl.bind
    intro dangles _
    split
    · exact ih
    · exact ih

lemma yields_exitScope (scope : Scope) : Yields P (c.exitScope scope s) fun _ => True := by
  rw [exitScope]
  split
  · exact trivial
  · exact (h.yields_checkDangling scope _).bind fun _ _ => trivial

lemma yields_giveBack (he : value.firstForeign? = none) :
    Yields P (c.giveBack pos value loc s) fun _ => True := by
  rw [giveBack]
  split
  · apply (h.yields_evaluate he).bind
    intro r _
    exact (h.yields_escape r.1).bind fun _ _ => trivial
  · exact trivial

/-! ### Selections -/

lemma yields_scrutinize (he : e.firstForeign? = none) :
    Yields P (c.scrutinize pos loc e s) fun _ => True := by
  rw [scrutinize]
  split
  · exact (h.yields_evaluate he).bind fun _ _ => trivial
  · exact trivial

lemma yields_armTypes (hn : (Node.arm a (some sel)).Allowed c.typing.table P) :
    Yields P (c.armTypes sel a) fun types => ∀ ty ∈ types, c.typing.table.Knows P ty := by
  apply (h.typing.yields_scrutineeType (hn.known _ mem_cons_self) hn.stated).bind
  intro ty hk
  apply (h.typing.yields_binderTypes a hk).bind
  intro types htypes ty' hty'
  obtain ⟨b, hb, rfl⟩ := mem_map.mp hty'
  exact htypes _ (of_mem_zip (mem_filter.mp hb).1).2

lemma yields_takesAny {types : List Ty} (ht : ∀ ty ∈ types, c.typing.table.Knows P ty) :
    Yields P (c.takesAny types) fun _ => True := by
  induction types with
  | nil => exact trivial
  | cons ty rest ih =>
    have hrest := ih fun ty' hty' => ht ty' (mem_cons_of_mem _ hty')
    rw [takesAny]
    split
    · exact hrest.bind fun _ _ => trivial
    · apply Yields.bind (Q := fun _ => True)
      · exact (h.typing.table.yields_tyIsCopy (ht ty mem_cons_self)).map fun _ _ => trivial
      · intro _ _
        exact hrest.bind fun _ _ => trivial

lemma yields_takeApart (scrutinee : Option Place) (takes : Bool) :
    Yields P (c.takeApart pos span scrutinee takes s) fun _ => True := by
  rw [takeApart.eq_def]
  split
  · apply (h.yields_consumption _).bind
    intro a _
    exact (h.yields_access a).bind fun _ _ => trivial
  · exact trivial

lemma yields_shareLoans {byRef : Bool} {binders : List (Binding × Ty)} (scrutinee : Option Place) :
    Yields P (c.shareLoans pos span byRef binders scrutinee s) fun _ => True := by
  rw [shareLoans.eq_def]
  dsimp only
  split
  · exact trivial
  · split
    · exact trivial
    · split
      · exact (h.yields_lend _ _).bind fun _ _ => trivial
      · exact trivial

lemma yields_bindArm (scrutinee : Option Place)
    (hn : (Node.arm a (some sel)).Allowed c.typing.table P) :
    Yields P (c.bindArm sel scrutinee pos a s) fun _ => True := by
  apply (h.yields_armTypes hn).bind
  intro types ht
  apply (h.yields_takesAny ht).bind
  intro takes _
  apply (h.yields_takeApart scrutinee takes).bind
  intro s' _
  exact h.yields_shareLoans scrutinee

end Prepared

/-! ### Walks -/

variable {c : Context} {es : List Event}

lemma yields_replayLoop {again : Session → Except Fault Session}
    (h : ∀ s, Yields P (again s) fun _ => True) (n : Nat) (joined : Flow) (s : Session) :
    Yields P (replayLoop again n joined s) fun _ => True := by
  induction n generalizing joined s with
  | zero => exact trivial
  | succ n ih => exact (h _).bind fun s' _ => ih _ _

namespace Prepared

/-- A prepared statement fails with allowed faults only. -/
lemma yields_step (h : c.Prepared P es) {p : Int} {node : Node} (he : .step p node ∈ es)
    (s : Session) : Yields P (c.execute (.step p node) s) fun _ => True := by
  have hn : node.Allowed c.typing.table P := h.node _ he rfl
  cases node with
  | function | param p => exact trivial
  | arm a sel =>
    cases sel with
    | none => exact trivial
    | some sel => exact h.yields_bindArm _ hn
  | stmt stmt =>
    cases stmt with
    | block b => exact trivial
    | declare name type value mutable loc =>
      exact h.yields_declare (hn.known value mem_cons_self)
    | assign target value loc =>
      exact h.yields_assign (hn.known value (by simp [Node.typed, Stmt.expressions]))
        (h.target _ he rfl target rfl)
    | evaluate value loc =>
      exact (h.yields_evaluate (hn.known value mem_cons_self)).map fun _ _ => trivial
    | ret value loc => exact h.yields_giveBack (hn.known value mem_cons_self)
    | branch test t e loc | loop test body loc =>
      exact h.yields_inspect (hn.known test mem_cons_self)
    | select scrutinee arms type loc =>
      exact (h.yields_scrutinize (hn.known scrutinee mem_cons_self)).map fun _ _ => trivial
    | foreign kind => exact absurd rfl (hn.ne_foreign kind)

lemma yields_seq {k l : Skeleton} (hk : ∀ s, Yields P (k.walk c s) fun _ => True)
    (hl : ∀ s, Yields P (l.walk c s) fun _ => True) (s : Session) :
    Yields P ((Skeleton.seq k l).walk c s) fun _ => True := by
  apply (hk s).bind
  intro s' _
  split
  · exact trivial
  · exact hl s'

/-- A scope is left by the label under which it was entered. -/
lemma yields_scope (h : c.Prepared P es) {start : Int} (stop : Int) {node : Node} {kind : ScopeKind}
    {k : Skeleton} (he : .enter start node kind ∈ es)
    (hk : ∀ s, Yields P (k.walk c s) fun _ => True)
    (s : Session) : Yields P ((Skeleton.scope start stop node kind k).walk c s) fun _ => True := by
  have hscope := h.scope _ he rfl node.kindName
  apply Yields.bind (Q := fun _ => True) (hscope.map fun _ _ => trivial)
  intro s _
  apply (hk s).bind
  intro s _
  exact hscope.bind fun scope _ => h.yields_exitScope scope

/-- In a prepared context a walk fails with allowed faults only. -/
lemma yields_walk (h : c.Prepared P es) {part : Skeleton.Part} {k : Skeleton} {lo hi : Int}
    (hlaid : Skeleton.Laid part k lo hi) (hsub : k.events ⊆ es) (s : Session) :
    Yields P (k.walk c s) fun _ => True := by
  induction hlaid generalizing s with
  | nil | empty => exact trivial
  | cons _ _ ih ih' =>
    obtain ⟨hk, hl⟩ := append_subset.mp hsub
    exact yields_seq (ih hk) (ih' hl) s
  | simple => exact (h.yields_step (hsub mem_cons_self) s).bind fun _ _ => trivial
  | block _ ih =>
    obtain ⟨he, hk⟩ := cons_subset.mp hsub
    exact (h.yields_scope _ he (ih (append_subset.mp hk).1) s).bind fun _ _ => trivial
  | scope _ ih =>
    obtain ⟨he, hk⟩ := cons_subset.mp hsub
    exact h.yields_scope _ he (ih (append_subset.mp hk).1) s
  | branch _ ih | select _ ih =>
    obtain ⟨he, hk⟩ := cons_subset.mp hsub
    exact (yields_seq (h.yields_step he) (ih hk) s).bind fun _ _ => trivial
  | @loop p q _ _ _ _ _ ih =>
    obtain ⟨he, hscope⟩ := cons_subset.mp hsub
    obtain ⟨henter, hk⟩ := cons_subset.mp hscope
    have hbody := h.yields_scope q henter (ih (append_subset.mp hk).1)
    refine .bind (Q := fun _ => True) ?_ fun _ _ => trivial
    apply (h.yields_step he s).bind
    intro s _
    apply (hbody s).bind
    intro s₁ _
    exact yields_replayLoop (fun s => (h.yields_step he s).bind fun s _ => hbody s) _ _ _
  | fork _ _ ih ih' =>
    obtain ⟨hk, hl⟩ := append_subset.mp hsub
    apply (ih hk s).bind
    intro s₁ _
    exact (ih' hl _).bind fun _ _ => trivial
  | arm _ ih =>
    obtain ⟨henter, hk⟩ := cons_subset.mp hsub
    obtain ⟨he, hbody⟩ := cons_subset.mp (append_subset.mp hk).1
    refine h.yields_scope _ henter ?_ s
    exact yields_seq (k := .event _) (h.yields_step he) (ih hbody)

end Prepared

lemma Prepared.yields_checkSelection (h : c.Prepared P es) {e : Event} (he : e ∈ es) :
    Yields P (c.checkSelection e) fun _ => True := by
  rw [checkSelection]
  split
  · rename_i scrutinee arms type loc hs hn
    have hallowed := h.node e he hs
    rw [hn] at hallowed
    apply (h.typing.yields_scrutineeType (hallowed.known _ mem_cons_self) hallowed.stated).bind
    intro ty hk
    split
    · exact trivial
    · apply (h.typing.table.yields_aggregate? .variant hk).bind
      intro d? _
      split
      · exact trivial
      · exact (TypeTable.Allows.yields_describeTy hk).bind fun _ _ => trivial
  · exact trivial

lemma Prepared.yields_checkSelections (h : c.Prepared P es) {fs : List Event} (hsub : fs ⊆ es) :
    Yields P (c.checkSelections fs) fun _ => True := by
  induction fs with
  | nil => exact trivial
  | cons e rest ih =>
    rw [cons_subset] at hsub
    apply (h.yields_checkSelection hsub.1).bind
    intro _ _
    exact (ih hsub.2).bind fun _ _ => trivial

lemma Prepared.yields_run (h : c.Prepared P c.function.events) : Yields P c.run fun _ => True := by
  have hevents : c.function.events ⊆ c.function.events := fun e he => he
  obtain ⟨henter, hrest⟩ := cons_subset.mp hevents
  obtain ⟨-, hbody⟩ := append_subset.mp (append_subset.mp hrest).1
  have hscope := h.scope _ henter rfl Node.function.kindName
  rw [run_eq]
  apply Yields.bind (Q := fun _ => True) (hscope.map fun _ _ => trivial)
  intro s _
  rw [← Function.events_skeleton] at hbody
  apply (h.yields_walk (Stmt.laid_skeletonAll _ _) hbody s).bind
  exact fun s' _ => hscope.bind fun root _ => h.yields_exitScope root

lemma Prepared.yields_report (h : c.Prepared P c.function.events)
    (htree : c.tree.events = c.function.events) :
    Yields P c.report fun r => r.function = c.function.name := by
  have hstreams : Yields P c.streams fun _ => True := by
    apply h.yields_run.bind
    intro s _
    split
    · have hsub : c.tree.events ⊆ c.function.events := by
        rw [htree]
        exact fun e he => he
      exact (h.yields_checkSelections hsub).bind fun _ _ => trivial
    · exact trivial
  exact hstreams.bind fun _ _ => rfl

end Context

end Ownership
