import Ownership.Proofs.Control.Walk
import Ownership.Proofs.Types.Alike
import Ownership.Proofs.Types.Memory
import Ownership.Report

/-!
# Analyses that share a type table

Functions of a program are analysed on one type table, and each question whether a type is copied
leaves its answer behind in the table. Here the table goes through the whole analysis: every rule
passes on the table as the rules before it have left it, and it stays when the analysis breaks
down. An analysis that starts from a table with more or with fewer answers goes the same way, step
by step, as one for which nothing is remembered, and nothing but true answers is left behind. So
analyses do not influence each other, in whatever order they come.
-/

namespace Ownership

/-- A computation that may ask whether types are copied, and that keeps the answers in a table. -/
def Inquiry (α : Type) : Type := TypeTable → Except Fault α × TypeTable

instance : Monad Inquiry where
  pure a := fun t => (.ok a, t)
  bind m f := fun t =>
    match m t with
    | (.ok a, t) => f a t
    | (.error fault, t) => (.error fault, t)

instance : MonadLift (Except Fault) Inquiry := ⟨fun x t => (x, t)⟩

namespace Inquiry

/-! ### Rules that pass the table on -/

/-- Asks whether values of a type are copied. -/
def ask : Ty → Inquiry Bool
  | .unknown => pure false
  | .named id => fun t => t.isCopy (some id)
  | .ref _ mutable => pure !mutable

def demanded (c : Context) (p : Place) : Demand → Inquiry Access
  | .take => do
    if ← ask (← c.typing.placeType p) then return .read p
    else c.consumption p
  | demand => c.demanded p demand

def fulfil (c : Context) (p : Place) (pos : Int) (span : Span) (s : Session) (demand : Demand) :
    Inquiry (List Nat × Session) := do
  let a ← demanded c p demand
  let (held, s) ← c.access pos span s a
  return (if demand = .take then c.carried p pos s else held, s)

def perform (c : Context) (pos : Int) (s : Session) : Request → Inquiry (List Nat × Session)
  | .fail fault => (.error fault : Except Fault (List Nat × Session))
  | .place demand p span kept => do
    let (held, s) ← fulfil c p pos span s demand
    return (if kept then held else [], s)

def performAll (c : Context) (pos : Int) (s : Session) : List Request → Inquiry (List Nat × Session)
  | [] => pure ([], s)
  | r :: rest => do
    let (held, s) ← perform c pos s r
    let (more, s) ← performAll c pos s rest
    return (held ++ more, s)

/-- Evaluates an expression whose value is taken. -/
def evaluate (c : Context) (pos : Int) (loc : Span) (e : Expr) (s : Session) :
    Inquiry (List Nat × Session) :=
  performAll c pos s (e.requests (c.evalScope pos loc) true)

/-- Evaluates an expression that is only read. -/
def inspect (c : Context) (pos : Int) (loc : Span) (e : Expr) (s : Session) : Inquiry Session := do
  let (_, s) ← performAll c pos s (e.readRequests (c.evalScope pos loc))
  return s

def declare (c : Context) (pos : Int) (value : Expr) (loc : Span) (s : Session) :
    Inquiry Session := do
  let (held, s) ← evaluate c pos loc value s
  return c.introduce pos (if value.isPresent then .owned else .uninit) held s

def assign (c : Context) (pos : Int) (target value : Expr) (loc : Span) (s : Session) :
    Inquiry Session := do
  let (held, s) ← evaluate c pos loc value s
  match target.place? (c.meaning pos) with
  | none => (.error (.notAPlace pos) : Except Fault Session)
  | some p => c.store pos (target.loc.orElse loc) p held s

def giveBack (c : Context) (pos : Int) (value : Expr) (loc : Span) (s : Session) :
    Inquiry Session := do
  if value.isPresent then
    let (held, s) ← evaluate c pos loc value s
    let s ← c.escape pos (value.loc.orElse loc) held s
    return c.leaveFunction pos s
  else return c.leaveFunction pos s

def scrutinize (c : Context) (pos : Int) (loc : Span) (e : Expr) (s : Session) :
    Inquiry (Option Place × Session) :=
  match e.place? (c.meaning pos) with
  | none => do
    let (_, s) ← evaluate c pos loc e s
    return (none, s)
  | some _ => c.scrutinize pos loc e s

/-- Whether binders of some types take something out of the scrutinee. -/
def takesAny : List Ty → Inquiry Bool
  | [] => pure false
  | ty :: rest => do
    let here ← if ty.isLocalRef then pure false else (!·) <$> ask ty
    let later ← takesAny rest
    return here || later

/-- The rule for the header of an arm at a position. -/
def bindArm (c : Context) (sel : Selection) (scrutinee : Option Place) (pos : Int) (a : Arm)
    (s : Session) : Inquiry Session := do
  let span := a.loc.orElse s.span
  let types ← c.armTypes sel a
  let binders := (c.tree.declaredBy pos).zip types
  let takes ← takesAny types
  let s ← c.takeApart pos span scrutinee takes (Context.fillBinders binders s)
  c.shareLoans pos span a.byRef binders scrutinee s

/-- Executes a node at a position by the rule for it. -/
def executeNode (c : Context) (pos : Int) (s : Session) : Node → Inquiry Session
  | .stmt (.declare _ _ value _ loc) => declare c pos value loc (s.begin loc)
  | .stmt (.assign target value loc) => assign c pos target value loc (s.begin loc)
  | .stmt (.evaluate value loc) => Prod.snd <$> evaluate c pos loc value (s.begin loc)
  | .stmt (.ret value loc) => giveBack c pos value loc (s.begin loc)
  | .stmt (.branch test _ _ loc) | .stmt (.loop test _ loc) => inspect c pos loc test (s.begin loc)
  | .stmt (.select scrutinee _ _ loc) => Prod.snd <$> scrutinize c pos loc scrutinee (s.begin loc)
  | .stmt (.foreign kind) => (.error (.unknownStatement kind) : Except Fault Session)
  | .arm a (some sel) => bindArm c sel (c.touchable sel s) pos a s
  | .arm _ none | .stmt (.block _) | .function | .param _ => pure s

def execute (c : Context) (e : Event) (s : Session) : Inquiry Session :=
  match e.kind with
  | .step => executeNode c e.pos s e.node
  | _ => c.execute e s

def replayLoop (again : Session → Inquiry Session) : Nat → Flow → Session → Inquiry Session
  | 0, joined, s => pure (s.withFlow joined)
  | n + 1, joined, s => do
    let s' ← again { s with flow := joined, replay := s.replay + 1 }
    replayLoop again n (joined.merge s'.flow) { s' with replay := s.replay }

def walk (c : Context) : Skeleton → Session → Inquiry Session
  | .done, s => pure s
  | .event e, s => execute c e s
  | .scope start stop node kind body, s => do
    let s ← execute c (.enter start node kind) s
    let s ← walk c body s
    execute c (.exit start stop node) s
  | .noted pos k, s => do
    let s ← walk c k s
    return s.snapshot pos
  | .seq k l, s => do
    let s ← walk c k s
    if s.flow.returned then return s else walk c l s
  | .fork k l, s => do
    let s₁ ← walk c k s
    let s₂ ← walk c l (s₁.withFlow s.flow)
    return s₂.withFlow (s₁.flow.merge s₂.flow)
  | .loop pos test body loc inner, s => do
    let s ← execute c (.test pos test body loc) s
    let s₁ ← walk c inner s
    let again := fun s => do
      let s ← execute c (.test pos test body loc) s
      walk c inner s
    replayLoop again c.replays (s.flow.merge s₁.flow) s₁

def run (c : Context) : Inquiry Session := do
  let s ← c.initial
  let s ← walk c c.function.skeleton s
  execute c (.exit 0 c.function.stop .function) s

def streams (c : Context) : Inquiry (Session × List (List Finding)) := do
  let s ← run c
  if c.options.checkExhaustiveness then
    let coverage ← c.checkSelections c.tree.events
    return (s, [s.findings, coverage])
  else return (s, [s.findings])

def report (c : Context) : Inquiry Report := do
  let (s, streams) ← streams c
  return {
    function := c.function.name
    findings := Finding.collect streams
    drops := s.drops
    tree := c.tree }

end Inquiry

/-! ### Tables that are shared -/

namespace TypeTable

/-- Whether a table has the definitions and names of another one and remembers only what follows
from the definitions. -/
structure Shares (t₀ t : TypeTable) : Prop where
  alike : t₀.Alike t
  faithful : t.Faithful

lemma Shares.copies?_eq {t₀ t : TypeTable} (h : t₀.Shares t) (h₀ : t₀.Faithful) (id : TypeId) :
    t.copies? (some id) = t₀.copies? (some id) := by
  rw [h.faithful.copies?_eq, h₀.copies?_eq, h.alike.size, classifyAnew_congr h.alike.defs]

lemma Shares.isCopy {t₀ t : TypeTable} (h : t₀.Shares t) (id : Option TypeId) :
    t₀.Shares (t.isCopy id).2 :=
  ⟨h.alike.trans ⟨defs_isCopy t id, names_isCopy t id⟩, h.faithful.isCopy id⟩

end TypeTable

/-! ### Computations that do not notice what is remembered -/

namespace Inquiry

variable {α β : Type} {t₀ : TypeTable}

/-- Whether a computation has one result for all tables that share their definitions, and leaves
such a table behind. -/
def Mirrors (t₀ : TypeTable) (m : Inquiry α) (x : Except Fault α) : Prop :=
  ∀ t, t₀.Shares t → (m t).1 = x ∧ t₀.Shares (m t).2

namespace Mirrors

variable {m : Inquiry α} {x : Except Fault α}

lemma lift (x : Except Fault α) : Mirrors t₀ (liftM x) x := fun _ ht => ⟨rfl, ht⟩

lemma pure (a : α) : Mirrors t₀ (Pure.pure a) (.ok a) := fun _ ht => ⟨rfl, ht⟩

/-- What mirrors part by part mirrors as a whole. -/
lemma bind {k : α → Inquiry β} {f : α → Except Fault β} (hm : Mirrors t₀ m x)
    (hk : ∀ a, Mirrors t₀ (k a) (f a)) : Mirrors t₀ (m >>= k) (x >>= f) := by
  intro t ht
  obtain ⟨hx, hleft⟩ := hm t ht
  cases hmt : m t with
  | mk r t' =>
    rw [hmt] at hx hleft
    subst hx
    cases r with
    | error fault =>
      have : (m >>= k) t = (.error fault, t') := by
        simp only [Bind.bind, hmt]
      rw [this]
      exact ⟨rfl, hleft⟩
    | ok a =>
      have : (m >>= k) t = k a t' := by
        simp only [Bind.bind, hmt]
      rw [this]
      exact hk a t' hleft

lemma map (hm : Mirrors t₀ m x) (f : α → β) : Mirrors t₀ (f <$> m) (f <$> x) := by
  have h := hm.bind fun a => (pure (f a) : Mirrors t₀ _ _)
  cases x <;> exact h

lemma ask (h₀ : t₀.Faithful) (ty : Ty) : Mirrors t₀ (ask ty) (t₀.tyIsCopy ty) := by
  cases ty with
  | unknown => exact pure false
  | ref inner mutable => exact pure !mutable
  | named id => exact fun t ht => ⟨ht.copies?_eq h₀ id, ht.isCopy (some id)⟩

end Mirrors

end Inquiry

/-! ### Rules that ask nothing -/

namespace Context

/-- Whether a program is alike to the one in which a function stands. -/
structure Alike (c : Context) (q : Program) : Prop where
  program : c.program.Alike q
  typing : c.typing.program.Alike q

namespace Alike

variable {c : Context} {q : Program} (h : c.Alike q)

include h

lemma refPrefix? : (c.under q).typing.refPrefix? = c.typing.refPrefix? :=
  Typing.refPrefix?_under h.typing

lemma placeType : (c.under q).typing.placeType = c.typing.placeType :=
  Typing.placeType_under h.typing

lemma evalScope (pos : Int) (loc : Span) : (c.under q).evalScope pos loc = c.evalScope pos loc := by
  rw [Context.evalScope, Context.evalScope, under, h.program.signature?]
  rfl

lemma access (pos : Int) (span : Span) (s : Session) (a : Access) :
    (c.under q).access pos span s a = c.access pos span s a := by
  cases a with
  | lend p kind =>
    rw [Context.access, Context.access, lend, lend, h.refPrefix?]
    rfl
  | _ => rfl

lemma consumption (p : Place) : (c.under q).consumption p = c.consumption p := by
  rw [Context.consumption, Context.consumption, h.refPrefix?]

lemma demanded (p : Place) (kind : LoanKind) :
    (c.under q).demanded p (.pass kind) = c.demanded p (.pass kind) := by
  have hrefs : (c.under q).typing.table.tyIsRef = c.typing.table.tyIsRef :=
    (Typing.alike_table h.typing).tyIsRef
  rw [Context.demanded, Context.demanded, h.placeType, hrefs]

lemma store (pos : Int) (span : Span) (p : Place) (held : List Nat) (s : Session) :
    (c.under q).store pos span p held s = c.store pos span p held s := by
  simp only [Context.store, storage, h.refPrefix?, h.access]
  rfl

lemma escape (pos : Int) (span : Span) (ids : List Nat) (s : Session) :
    (c.under q).escape pos span ids s = c.escape pos span ids s := by
  induction ids generalizing s with
  | nil => rfl
  | cons id rest ih =>
    simp only [Context.escape, h.refPrefix?, ih]
    rfl

lemma checkDangling (scope : Scope) (loans : List Loan) (s : Session) :
    (c.under q).checkDangling scope loans s = c.checkDangling scope loans s := by
  induction loans generalizing s with
  | nil => rfl
  | cons l rest ih =>
    simp only [Context.checkDangling, danglesAt, h.refPrefix?, ih]
    rfl

lemma exitScope (scope : Scope) (s : Session) :
    (c.under q).exitScope scope s = c.exitScope scope s := by
  simp only [Context.exitScope, h.checkDangling]
  rfl

lemma armTypes (sel : Selection) (a : Arm) : (c.under q).armTypes sel a = c.armTypes sel a := by
  have hscrutinee : (c.under q).typing.scrutineeType = c.typing.scrutineeType :=
    Typing.scrutineeType_under h.typing
  have hbinders : (c.under q).typing.binderTypes = c.typing.binderTypes :=
    Typing.binderTypes_under h.typing
  rw [Context.armTypes, Context.armTypes, hscrutinee, hbinders]
  rfl

lemma takeApart (pos : Int) (span : Span) (scrutinee : Option Place) (takes : Bool) (s : Session) :
    (c.under q).takeApart pos span scrutinee takes s = c.takeApart pos span scrutinee takes s := by
  cases takes <;> cases scrutinee <;> simp only [Context.takeApart, h.consumption, h.access]

lemma shareLoans (pos : Int) (span : Span) (byRef : Bool) (binders : List (Binding × Ty))
    (scrutinee : Option Place) (s : Session) :
    (c.under q).shareLoans pos span byRef binders scrutinee s =
      c.shareLoans pos span byRef binders scrutinee s := by
  cases scrutinee with
  | none => rfl
  | some p =>
    have hlend := h.access pos span s (.lend p .shared)
    simp only [Context.access] at hlend
    simp only [Context.shareLoans, hlend]
    rfl

lemma checkSelections (es : List Event) :
    (c.under q).checkSelections es = c.checkSelections es := by
  have hscrutinee : (c.under q).typing.scrutineeType = c.typing.scrutineeType :=
    Typing.scrutineeType_under h.typing
  have htable : c.typing.table.Alike (c.under q).typing.table := Typing.alike_table h.typing
  induction es with
  | nil => rfl
  | cons e rest ih =>
    have hone : (c.under q).checkSelection e = c.checkSelection e := by
      simp only [checkSelection, hscrutinee, htable.aggregate?, htable.describeTy]
      rfl
    rw [Context.checkSelections, Context.checkSelections, hone, ih]

end Alike

end Context

/-! ### Rules that ask -/

namespace Inquiry

variable {c : Context} {q : Program} (h : c.Alike q) (hf : c.typing.table.Faithful)

include h hf

lemma mirrors_demanded (p : Place) (demand : Demand) :
    Mirrors c.typing.table (demanded (c.under q) p demand) (c.demanded p demand) := by
  cases demand with
  | take =>
    rw [demanded, h.placeType, h.consumption]
    refine (Mirrors.lift _).bind fun ty => (Mirrors.ask hf ty).bind fun copied => ?_
    cases copied with
    | true => exact .pure _
    | false => exact .lift _
  | inspect => exact .lift _
  | lend kind => exact .lift _
  | pass kind =>
    rw [demanded, h.demanded]
    · exact .lift _
    · exact Demand.noConfusion

lemma mirrors_performAll (pos : Int) (s : Session) (rs : List Request) :
    Mirrors c.typing.table (performAll (c.under q) pos s rs) (c.performAll pos s rs) := by
  induction rs generalizing s with
  | nil => exact .pure _
  | cons r rest ih =>
    have hone : Mirrors c.typing.table (perform (c.under q) pos s r) (c.perform pos s r) := by
      cases r with
      | fail fault => exact .lift _
      | place demand p span kept =>
        refine .bind ?_ fun _ => .pure _
        refine (mirrors_demanded h hf p demand).bind fun a => ?_
        rw [h.access]
        exact (Mirrors.lift _).bind fun _ => .pure _
    exact hone.bind fun k => (ih k.2).bind fun _ => .pure _

lemma mirrors_evaluate (pos : Int) (loc : Span) (e : Expr) (s : Session) :
    Mirrors c.typing.table (evaluate (c.under q) pos loc e s) (c.evaluate pos loc e s) := by
  rw [evaluate, h.evalScope]
  exact mirrors_performAll h hf pos s _

lemma mirrors_inspect (pos : Int) (loc : Span) (e : Expr) (s : Session) :
    Mirrors c.typing.table (inspect (c.under q) pos loc e s) (c.inspect pos loc e s) := by
  rw [inspect, h.evalScope]
  exact (mirrors_performAll h hf pos s _).bind fun _ => .pure _

lemma mirrors_assign (pos : Int) (target value : Expr) (loc : Span) (s : Session) :
    Mirrors c.typing.table (assign (c.under q) pos target value loc s)
      (c.assign pos target value loc s) := by
  refine (mirrors_evaluate h hf pos loc value s).bind ?_
  rintro ⟨held, s'⟩
  simp only [h.store, show (c.under q).meaning pos = c.meaning pos from rfl]
  cases target.place? (c.meaning pos) with
  | none => exact .lift _
  | some p => exact .lift _

lemma mirrors_giveBack (pos : Int) (value : Expr) (loc : Span) (s : Session) :
    Mirrors c.typing.table (giveBack (c.under q) pos value loc s) (c.giveBack pos value loc s) := by
  rw [giveBack, Context.giveBack]
  cases value.isPresent with
  | false => exact .pure _
  | true =>
    refine (mirrors_evaluate h hf pos loc value s).bind ?_
    rintro ⟨held, s'⟩
    simp only [h.escape]
    exact (Mirrors.lift _).bind fun _ => .pure _

lemma mirrors_scrutinize (pos : Int) (loc : Span) (e : Expr) (s : Session) :
    Mirrors c.typing.table (scrutinize (c.under q) pos loc e s) (c.scrutinize pos loc e s) := by
  simp only [scrutinize, Context.scrutinize, show (c.under q).meaning pos = c.meaning pos from rfl]
  cases e.place? (c.meaning pos) with
  | none => exact (mirrors_evaluate h hf pos loc e s).bind fun _ => .pure _
  | some p => exact .lift _

omit h in
lemma mirrors_takesAny (types : List Ty) :
    Mirrors c.typing.table (takesAny types) (c.takesAny types) := by
  induction types with
  | nil => exact .pure _
  | cons ty rest ih =>
    rw [takesAny, Context.takesAny]
    cases ty.isLocalRef with
    | true => exact (Mirrors.pure false).bind fun _ => ih.bind fun _ => .pure _
    | false => exact ((Mirrors.ask hf ty).map _).bind fun _ => ih.bind fun _ => .pure _

lemma mirrors_bindArm (sel : Selection) (scrutinee : Option Place) (pos : Int) (a : Arm)
    (s : Session) : Mirrors c.typing.table (bindArm (c.under q) sel scrutinee pos a s)
      (c.bindArm sel scrutinee pos a s) := by
  rw [bindArm, h.armTypes]
  refine (Mirrors.lift _).bind fun types => (mirrors_takesAny hf types).bind fun takes => ?_
  rw [h.takeApart]
  refine (Mirrors.lift _).bind fun s' => ?_
  rw [h.shareLoans]
  exact .lift _

lemma mirrors_executeNode (pos : Int) (s : Session) (n : Node) :
    Mirrors c.typing.table (executeNode (c.under q) pos s n) (c.executeNode pos s n) := by
  cases n with
  | stmt stmt =>
    cases stmt with
    | block b => exact .pure s
    | declare name type value mutable loc =>
      exact (mirrors_evaluate h hf pos loc value _).bind fun _ => .pure _
    | assign target value loc => exact mirrors_assign h hf pos target value loc _
    | evaluate value loc => exact (mirrors_evaluate h hf pos loc value _).map _
    | ret value loc => exact mirrors_giveBack h hf pos value loc _
    | branch test t e loc | loop test body loc => exact mirrors_inspect h hf pos loc test _
    | select scrutinee arms type loc => exact (mirrors_scrutinize h hf pos loc scrutinee _).map _
    | foreign kind => exact .lift _
  | arm a sel =>
    cases sel with
    | none => exact .pure s
    | some sel => exact mirrors_bindArm h hf sel _ pos a s
  | function => exact .pure s
  | param p => exact .pure s

lemma mirrors_execute (e : Event) (s : Session) :
    Mirrors c.typing.table (execute (c.under q) e s) (c.execute e s) := by
  cases hk : e.kind with
  | step =>
    simp only [execute, Context.execute, hk]
    exact mirrors_executeNode h hf e.pos s e.node
  | enter =>
    simp only [execute, Context.execute, hk]
    exact .lift _
  | exit =>
    simp only [execute, Context.execute, hk, h.exitScope]
    exact .lift _

omit h hf in
lemma mirrors_replayLoop {t₀ : TypeTable} {again : Session → Inquiry Session}
    {again' : Session → Except Fault Session} (hagain : ∀ s, Mirrors t₀ (again s) (again' s))
    (n : Nat) (joined : Flow) (s : Session) :
    Mirrors t₀ (replayLoop again n joined s) (Context.replayLoop again' n joined s) := by
  induction n generalizing joined s with
  | zero => exact .pure _
  | succ n ih => exact (hagain _).bind fun s' => ih _ _

/-- A walk does not notice what is remembered. -/
lemma mirrors_walk (k : Skeleton) (s : Session) :
    Mirrors c.typing.table (walk (c.under q) k s) (k.walk c s) := by
  induction k generalizing s with
  | done => exact .pure s
  | event e => exact mirrors_execute h hf e s
  | scope start stop node kind body ih =>
    exact (mirrors_execute h hf _ s).bind fun s₁ =>
      (ih s₁).bind fun s₂ => mirrors_execute h hf _ s₂
  | noted pos k ih => exact (ih s).bind fun _ => .pure _
  | seq k l ihk ihl =>
    refine (ihk s).bind fun s₁ => ?_
    cases s₁.flow.returned with
    | true => exact .pure s₁
    | false => exact ihl s₁
  | fork k l ihk ihl =>
    exact (ihk s).bind fun s₁ => (ihl _).bind fun _ => .pure _
  | loop pos test body loc inner ih =>
    refine (mirrors_execute h hf _ s).bind fun s₁ => (ih s₁).bind fun s₂ => ?_
    exact mirrors_replayLoop (fun s => (mirrors_execute h hf _ s).bind ih) _ _ _

lemma mirrors_run : Mirrors c.typing.table (run (c.under q)) c.run := by
  rw [Context.run_eq]
  exact (Mirrors.lift _).bind fun s =>
    (mirrors_walk h hf _ s).bind fun s' => mirrors_execute h hf _ s'

lemma mirrors_report : Mirrors c.typing.table (report (c.under q)) c.report := by
  have hstreams : Mirrors c.typing.table (streams (c.under q)) c.streams := by
    refine (mirrors_run h hf).bind fun s => ?_
    simp only [h.checkSelections, show (c.under q).options = c.options from rfl]
    cases c.options.checkExhaustiveness with
    | true => exact (Mirrors.lift _).bind fun _ => .pure _
    | false => exact .pure _
  exact hstreams.bind fun _ => .pure _

end Inquiry

end Ownership
