import Ownership.Proofs.Checker.Progress
import Ownership.Proofs.Guise.Reports

/-!
# Switches of a report

The switches for moves and writes while borrowed and for coverage are filters: with one of them
off, the report is the one with it on, without the findings that the switch is about. Nothing else
depends on them, because a finding has no effect on what comes after it.
-/

namespace Ownership

def Violation.isMoveWhileBorrowed : Violation → Bool
  | moveWhileBorrowed .. => true
  | _ => false

def Violation.isWriteWhileBorrowed : Violation → Bool
  | writeWhileBorrowed .. => true
  | _ => false

def Report.without (r : Report) (leave : Finding → Bool) : Report :=
  { r with findings := r.findings.filter (!leave ·) }

namespace Guise

/-! ### The guise that only leaves out findings -/

/-- The guise that changes neither numbers nor spans. -/
def leaving (moves writes coverage : Bool) : Guise where
  span := id
  type := Equiv.refl TypeId
  moves := moves
  writes := writes
  coverage := coverage
  span_unknown := rfl
  span_orElse _ _ := rfl

variable {m w v : Bool}

@[simp] lemma span_leaving (s : Span) : (leaving m w v).span s = s := rfl

@[simp] lemma type_leaving (id : TypeId) : (leaving m w v).type id = id := rfl

@[simp] lemma map_type_leaving (id : Option TypeId) : id.map (leaving m w v).type = id :=
  map_type_eq_self type_leaving id

lemma expr_leaving (e : Expr) : (leaving m w v).expr e = e := expr_eq_self span_leaving e

mutual

lemma stmt_leaving (s : Stmt) : (leaving m w v).stmt s = s := by
  match s with
  | .block b => rw [stmt, block_leaving b]
  | .declare _ _ _ _ _ => rw [stmt, expr_leaving, map_type_leaving, span_leaving]
  | .assign _ _ _ => rw [stmt, expr_leaving, expr_leaving, span_leaving]
  | .evaluate _ _ | .ret _ _ => rw [stmt, expr_leaving, span_leaving]
  | .branch _ t e _ =>
    rw [stmt, expr_leaving, block_leaving t, blockOpt_leaving e, span_leaving]
  | .loop _ b _ => rw [stmt, expr_leaving, block_leaving b, span_leaving]
  | .select _ arms _ _ =>
    rw [stmt, expr_leaving, arms_leaving arms, map_type_leaving, span_leaving]
  | .foreign _ => rfl

lemma block_leaving (b : Block) : (leaving m w v).block b = b := by
  match b with
  | .mk stmts _ => rw [block, stmts_leaving stmts, span_leaving]

lemma blockOpt_leaving (b : Option Block) : (leaving m w v).blockOpt b = b := by
  match b with
  | none => rfl
  | some b => rw [blockOpt, block_leaving b]

lemma stmts_leaving (ss : List Stmt) : (leaving m w v).stmts ss = ss := by
  match ss with
  | [] => rfl
  | s :: rest => rw [stmts, stmt_leaving s, stmts_leaving rest]

lemma arms_leaving (as : List Arm) : (leaving m w v).arms as = as := by
  match as with
  | [] => rfl
  | .mk _ b _ _ _ :: rest => rw [arms, block_leaving b, arms_leaving rest, span_leaving]

end

lemma function_leaving (f : Function) : (leaving m w v).function f = f := by
  have hparam : (leaving m w v).param = id := by
    funext p
    simp [param]
  simp [function, hparam, block_leaving]

lemma finding_leaving (f : Finding) : (leaving m w v).finding f = f := by
  obtain ⟨pos, span, violation⟩ := f
  cases violation <;> rfl

lemma findings_leaving (fs : List Finding) :
    (leaving m w v).findings fs = fs.filter ((leaving m w v).keeps ·.violation) := by
  rw [findings, funext finding_leaving, List.map_id']

lemma OnProgram.leaving (p : Program) : (Guise.leaving m w v).OnProgram p p where
  types := .self type_leaving p.types
  signature? callee := by
    rw [show (Guise.leaving m w v).signature = id from funext (signature_eq_self type_leaving)]
    cases p.signature? callee with
    | error fault => rfl
    | ok sig => cases sig <;> rfl

end Guise

/-! ### Reports -/

namespace Context

/-- What is said about a selection belongs to coverage. -/
lemma component_of_check {site : MatchSite} {d : TypeDef} :
    ∀ f ∈ site.check d, f.component = .exhaustiveness := by
  have hjudge : ∀ cov : Coverage, ∀ f ∈ (Coverage.judge d cov site.arms).1,
      f.component = .exhaustiveness := by
    induction site.arms with
    | nil => exact fun cov f hf => nomatch hf
    | cons a rest ih =>
      intro cov f hf
      rw [Coverage.judge] at hf
      cases hv : cov.violation? d a with
      | none =>
        rw [hv] at hf
        exact ih _ f hf
      | some v =>
        rw [hv] at hf
        rcases List.mem_cons.mp hf with rfl | hf
        · exact Guise.component_of_violation? d cov hv
        · exact ih _ f hf
  intro f hf
  unfold MatchSite.check at hf
  split at hf
  · rw [List.mem_singleton.mp hf]
    rfl
  · have hjudged := hjudge {}
    revert hf hjudged
    obtain ⟨fs, cov⟩ := Coverage.judge d {} site.arms
    intro hf hjudged
    dsimp only at hf hjudged
    split at hf
    · exact hjudged f hf
    · rcases List.mem_append.mp hf with hf | hf
      · exact hjudged f hf
      · rw [List.mem_singleton.mp hf]
        rfl

variable {c : Context}

lemma component_of_checkSelection {e : Event} {fs : List Finding}
    (h : c.checkSelection e = .ok fs) :
    ∀ f ∈ fs, f.component = .exhaustiveness := by
  unfold checkSelection at h
  split at h
  · obtain ⟨ty, -, h⟩ := bind_eq_ok.mp h
    split at h
    · cases h
      exact fun f hf => nomatch hf
    · obtain ⟨d?, -, h⟩ := bind_eq_ok.mp h
      cases d? with
      | some d =>
        cases h
        exact component_of_check
      | none =>
        obtain ⟨typeName, -, h⟩ := bind_eq_ok.mp h
        cases h
        exact fun f hf => List.mem_singleton.mp hf ▸ rfl
  · cases h
    exact fun f hf => nomatch hf

lemma component_of_checkSelections {es : List Event} {fs : List Finding}
    (h : c.checkSelections es = .ok fs) : ∀ f ∈ fs, f.component = .exhaustiveness := by
  induction es generalizing fs with
  | nil =>
    cases h
    exact fun f hf => nomatch hf
  | cons e es ih =>
    obtain ⟨here, hhere, h⟩ := bind_eq_ok.mp h
    obtain ⟨later, hlater, h⟩ := bind_eq_ok.mp h
    cases h
    intro f hf
    exact (List.mem_append.mp hf).elim (component_of_checkSelection hhere f) (ih hlater f)

end Context

namespace Guise

variable {g : Guise} {c : Context} {p q : Program} {f : Function} {o : Options} {r : Report}

lemma findings_checkSelections (hg : g.coverage = false) {es : List Event} {fs : List Finding}
    (h : c.checkSelections es = .ok fs) : g.findings fs = [] := by
  rw [findings, List.map_eq_nil_iff, List.filter_eq_nil_iff]
  intro f hf
  rw [keeps_of_coverage (Context.component_of_checkSelections h f hf), hg]
  exact Bool.false_ne_true

lemma streams_context_of_ok (hg : g.coverage = false) (h : g.OnContext c q)
    {k : Session × List (List Finding)} (hk : c.streams = .ok k) :
    (g.context q c).streams = .ok (g.session k.1, [g.findings k.1.findings]) ∧
      Finding.collect [g.findings k.1.findings] = g.findings (Finding.collect k.2) := by
  have hoff : (g.context q c).options.checkExhaustiveness = false := by simp [context, options, hg]
  obtain ⟨s, hs, hk⟩ := bind_eq_ok.mp hk
  have hstreams : (g.context q c).streams = .ok (g.session s, [g.findings s.findings]) := by
    rw [Context.streams, run_context h, hs, hoff]
    rfl
  rw [← collect_findings]
  split at hk
  · obtain ⟨coverage, hcoverage, hk⟩ := bind_eq_ok.mp hk
    cases hk
    have hnone := findings_checkSelections hg hcoverage
    exact ⟨hstreams, by simp [Finding.collect, hnone]⟩
  · cases hk
    exact ⟨hstreams, rfl⟩

lemma report_context_of_ok (h : g.OnContext c q) (hr : c.report = .ok r) :
    (g.context q c).report = .ok (g.report r) := by
  cases hg : g.coverage with
  | true =>
    rw [report_context hg h, hr]
    rfl
  | false =>
    obtain ⟨k, hk, hr⟩ := bind_eq_ok.mp hr
    obtain ⟨hstreams, hkept⟩ := streams_context_of_ok hg h hk
    cases hr
    rw [Context.report, hstreams]
    exact congrArg (Except.ok <| Report.mk c.function.name · k.1.drops (g.tree c.tree)) hkept

lemma analyzeFunction_of_ok (h : g.OnProgram p.warm q.warm) (hr : p.analyzeFunction f o = .ok r) :
    q.analyzeFunction (g.function f) (g.options o) = .ok (g.report r) := by
  obtain ⟨c, hc, hreport⟩ := Program.analyzeFunction_eq_ok.mp hr
  refine Program.analyzeFunction_eq_ok.mpr ⟨g.context q.warm c, ?_, ?_⟩
  · rw [build_function h, hc]
    rfl
  · exact report_context_of_ok (onContext_of_build h hc) hreport

end Guise

namespace Program

variable {p : Program} {f : Function} {o : Options} {r : Report} {m w v : Bool}

variable (h : p.analyzeFunction f o = .ok r)

include h

lemma tree_of_analyzeFunction : ScopeTree.ofFunction f = .ok r.tree := by
  obtain ⟨c, hc, hreport⟩ := analyzeFunction_eq_ok.mp h
  obtain ⟨tree, typing, htree, -, rfl⟩ := Context.build_cases hc
  obtain ⟨k, -, hreport⟩ := bind_eq_ok.mp hreport
  rw [htree, ← Except.ok.inj hreport]

lemma report_leaving :
    (Guise.leaving m w v).report r = r.without fun x =>
      !(Guise.leaving m w v).keeps x.violation := by
  have htree := tree_of_analyzeFunction h
  have hguise := Guise.ofFunction_function (g := .leaving m w v) f
  rw [Guise.function_leaving, htree] at hguise
  have hsame : (Guise.leaving m w v).tree r.tree = r.tree := (Except.ok.inj hguise).symm
  rw [Guise.report, Report.without, Guise.findings_leaving, hsame]
  simp

lemma analyzeFunction_leaving :
    p.analyzeFunction f ((Guise.leaving m w v).options o) =
      .ok (r.without fun x => !(Guise.leaving m w v).keeps x.violation) := by
  have hleaving := Guise.analyzeFunction_of_ok (g := .leaving m w v) (.leaving p.warm) h
  rwa [Guise.function_leaving, report_leaving h] at hleaving

omit h

lemma analyzeFunction_leaving_eq : p.analyzeFunction f ((Guise.leaving m w true).options o) =
    (·.without fun x => !(Guise.leaving m w true).keeps x.violation) <$> p.analyzeFunction f o := by
  cases h : p.analyzeFunction f o with
  | ok r => exact analyzeFunction_leaving h
  | error failure =>
    have hleaving := Guise.analyzeFunction_function (g := .leaving m w true) rfl (.leaving p.warm)
      (f := f) (o := o)
    rwa [Guise.function_leaving, h] at hleaving

/-- The switches of the options are filters. Without the one for moves while borrowed, the report
on a function is the report with it, without these moves, in the same order and with the same
destructions; so it is for writes while borrowed, and in both cases a fault is the same fault.
Without the switch for coverage, a report is the report with it, without all that coverage
found. -/
theorem switches_filter (p : Program) (f : Function) (o : Options) :
    p.analyzeFunction f { o with reportMovesWhileBorrowed := false } =
      (·.without (·.violation.isMoveWhileBorrowed)) <$>
        p.analyzeFunction f { o with reportMovesWhileBorrowed := true } ∧
    p.analyzeFunction f { o with reportWritesWhileBorrowed := false } =
      (·.without (·.violation.isWriteWhileBorrowed)) <$>
        p.analyzeFunction f { o with reportWritesWhileBorrowed := true } ∧
    ∀ r, p.analyzeFunction f { o with checkExhaustiveness := true } = .ok r →
      p.analyzeFunction f { o with checkExhaustiveness := false } =
        .ok (r.without (·.component = .exhaustiveness)) := by
  have hmoves : (fun x : Finding => !(Guise.leaving false true true).keeps x.violation) =
      (·.violation.isMoveWhileBorrowed) := by
    funext x
    cases x.violation <;> rfl
  have hwrites : (fun x : Finding => !(Guise.leaving true false true).keeps x.violation) =
      (·.violation.isWriteWhileBorrowed) := by
    funext x
    cases x.violation <;> rfl
  have hcoverage : (fun x : Finding => !(Guise.leaving true true false).keeps x.violation) =
      fun x => decide (x.component = .exhaustiveness) := by
    funext x
    rw [Finding.component]
    cases x.violation <;> rfl
  refine ⟨?_, ?_, fun r hr => ?_⟩
  · rw [← hmoves, ← analyzeFunction_leaving_eq]
    simp [Guise.options, Guise.leaving]
  · rw [← hwrites, ← analyzeFunction_leaving_eq]
    simp [Guise.options, Guise.leaving]
  · rw [← hcoverage, ← analyzeFunction_leaving hr]
    simp [Guise.options, Guise.leaving]

/-- Texts, and a variant type with two variants. -/
def signals : Program where
  types := (TypeTable.empty.run [.ensureString,
    .declareVariant "Signal" (some [⟨"go", []⟩, ⟨"stop", []⟩])]).2

end Program

/-- Writes and moves `s` while `r` borrows it, and reads it in the end; one signal is not
covered. -/
def Function.overstepping : Function where
  name := "overstepping"
  params := [⟨"k", some ⟨2⟩, false, .unknown⟩, ⟨"s", some ⟨1⟩, true, .unknown⟩]
  body := .mk [
    .declare "r" none (.borrow (.var "s" .unknown) false .unknown) false .unknown,
    .assign (.var "s" .unknown) (.literal (.text "t") .unknown) .unknown,
    .select (.var "k" .unknown)
      [.mk (some "go") (.mk [.declare "t" none (.var "s" .unknown) false .unknown] .unknown)
        [] false
        .unknown] none .unknown,
    .evaluate (.var "r" .unknown) .unknown, .evaluate (.var "s" .unknown) .unknown] .unknown

namespace Program

/-- Each switch removes one of four findings. The use of what was moved is found in any case,
although the move itself is left out in one of them. -/
theorem switches_filter_overstepping : ∃ r, signals.analyzeFunction .overstepping {} = .ok r ∧
    r.findings.map (·.violation.code) = ["E_WRITE_WHILE_BORROWED", "E_MATCH_NONEXHAUSTIVE",
      "E_MOVE_WHILE_BORROWED", "E_USE_AFTER_MOVE"] ∧
    r.drops.map (·.binding) = ["t", "r", "k"] ∧
    signals.analyzeFunction .overstepping { reportMovesWhileBorrowed := false } =
      .ok (r.without (·.violation.isMoveWhileBorrowed)) ∧
    signals.analyzeFunction .overstepping { reportWritesWhileBorrowed := false } =
      .ok (r.without (·.violation.isWriteWhileBorrowed)) ∧
    signals.analyzeFunction .overstepping { checkExhaustiveness := false } =
      .ok (r.without (·.component = .exhaustiveness)) := by
  have hok : ((signals.analyzeFunction .overstepping {}).toOption.any fun r =>
      decide (r.findings.map (·.violation.code) = ["E_WRITE_WHILE_BORROWED",
        "E_MATCH_NONEXHAUSTIVE",
        "E_MOVE_WHILE_BORROWED", "E_USE_AFTER_MOVE"] ∧
        r.drops.map (·.binding) = ["t", "r", "k"])) = true := by
    decide +kernel
  cases hr : signals.analyzeFunction .overstepping {} with
  | error failure =>
    rw [hr] at hok
    cases hok
  | ok r =>
    rw [hr] at hok
    obtain ⟨hfindings, hdrops⟩ := of_decide_eq_true hok
    obtain ⟨hmoves, hwrites, hcoverage⟩ := switches_filter signals .overstepping {}
    refine ⟨r, rfl, hfindings, hdrops, ?_, ?_, hcoverage r hr⟩
    · rw [hmoves, hr]
      rfl
    · rw [hwrites, hr]
      rfl

end Program

end Ownership
