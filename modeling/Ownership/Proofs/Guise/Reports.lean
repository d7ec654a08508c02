import Ownership.Proofs.Guise.Rules
import Ownership.Proofs.StableSort
import Ownership.Report

/-!
# Reports in another guise

The report on a function in another guise is the report on the function, in that guise. A guise
keeps positions and components, so it keeps the order of a report too. Faults are the same as well
if the guise does not leave out coverage, which may be what fails.
-/

namespace Ownership

open Context

/-! ### The order of a report -/

namespace Finding

lemma reportedBefore_trans (a b c : Finding) (hab : a.reportedBefore b = true)
    (hbc : b.reportedBefore c = true) : a.reportedBefore c = true := by
  simp only [reportedBefore, Bool.or_eq_true, Bool.and_eq_true, decide_eq_true_eq] at *
  omega

lemma reportedBefore_total (a b : Finding) :
    a.reportedBefore b = true ∨ b.reportedBefore a = true := by
  simp only [reportedBefore, Bool.or_eq_true, Bool.and_eq_true, decide_eq_true_eq]
  omega

lemma filter_collect (p : Finding → Bool) (streams : List (List Finding)) :
    (collect streams).filter p = collect (streams.map (List.filter p)) := by
  rw [collect, collect, filter_stableSort reportedBefore_trans reportedBefore_total,
    List.filter_flatten]

end Finding

namespace Guise

variable {g : Guise}

lemma findings_append (fs fs' : List Finding) :
    g.findings (fs ++ fs') = g.findings fs ++ g.findings fs' := by
  simp [findings]

lemma collect_findings (streams : List (List Finding)) :
    Finding.collect (streams.map g.findings) = g.findings (Finding.collect streams) := by
  have hbefore : ∀ f f' : Finding,
      (g.finding f).reportedBefore (g.finding f') = f.reportedBefore f' := by
    intro f f'
    rw [Finding.reportedBefore, Finding.reportedBefore, component_finding, component_finding]
    rfl
  have hflatten : (streams.map g.findings).flatten =
      (streams.map (List.filter (g.keeps ·.violation))).flatten.map g.finding := by
    rw [List.map_flatten, List.map_map]
    rfl
  rw [Finding.collect, hflatten, map_stableSort hbefore, findings, Finding.filter_collect]
  rfl

/-! ### Coverage -/

variable (g) in
def armSite (a : ArmSite) : ArmSite := { a with span := g.span a.span }

variable (g) in
def matchSite (m : MatchSite) : MatchSite where
  pos := m.pos
  arms := m.arms.map g.armSite
  span := g.span m.span

section Coverage

variable (d : TypeDef) (cov : Coverage) {v : Violation}

lemma violation?_armSite (a : ArmSite) :
    cov.violation? (g.typeDef d) (g.armSite a) = cov.violation? d a := by
  simp only [Coverage.violation?, variantNames_typeDef, name_typeDef, armSite]

lemma extend_armSite (a : ArmSite) : cov.extend (g.typeDef d) (g.armSite a) = cov.extend d a := by
  rw [Coverage.extend, Coverage.extend, violation?_armSite]
  rfl

lemma component_of_violation? {a : ArmSite} (h : cov.violation? d a = some v) :
    v.component = .exhaustiveness := by
  unfold Coverage.violation? at h
  split at h
  · cases h
    rfl
  · cases h
  · split at h
    · cases h
      rfl
    · obtain ⟨first, -, rfl⟩ := Option.map_eq_some_iff.mp h
      rfl

lemma keeps_of_coverage (hv : v.component = .exhaustiveness) : g.keeps v = g.coverage := by
  cases v <;> first | rfl | cases hv

variable (hg : g.coverage = true)

include hg in
lemma findings_cons_of_coverage (pos : Int) (span : Span) (hv : v.component = .exhaustiveness)
    (fs : List Finding) :
    g.findings ({ pos, span, violation := v } :: fs) =
      { pos, span := g.span span, violation := v } :: g.findings fs := by
  have hkeeps : g.keeps v = true := (keeps_of_coverage hv).trans hg
  have hsame : g.violation v = v := by cases v <;> first | rfl | cases hv
  rw [findings, List.filter_cons, if_pos hkeeps, List.map_cons, finding, hsame]
  rfl

include hg in
lemma judge_armSites (arms : List ArmSite) :
    Coverage.judge (g.typeDef d) cov (arms.map g.armSite) =
      Prod.map g.findings id (Coverage.judge d cov arms) := by
  induction arms generalizing cov with
  | nil => rfl
  | cons a rest ih =>
    rw [List.map_cons, Coverage.judge, Coverage.judge, extend_armSite, ih, violation?_armSite]
    cases hv : cov.violation? d a with
    | none => rfl
    | some v =>
      have hcons := findings_cons_of_coverage hg a.pos a.span (component_of_violation? d cov hv)
        (Coverage.judge d (cov.extend d a) rest).1
      exact congrArg (·, (Coverage.judge d (cov.extend d a) rest).2) hcons.symm

include hg in
lemma check_matchSite (site : MatchSite) :
    (g.matchSite site).check (g.typeDef d) = g.findings (site.check d) := by
  have hone : ∀ v : Violation, v.component = .exhaustiveness →
      g.findings [{ pos := site.pos, span := site.span, violation := v }] =
        [{ pos := site.pos, span := g.span site.span, violation := v }] :=
    fun v hv => findings_cons_of_coverage hg site.pos site.span hv []
  unfold MatchSite.check
  rw [isVariant_typeDef, show (g.matchSite site).arms = site.arms.map g.armSite from rfl,
    judge_armSites d _ hg]
  cases d.isVariant with
  | false => exact (hone (.nonVariantScrutinee d.name) rfl).symm
  | true =>
    obtain ⟨fs, final⟩ := Coverage.judge d {} site.arms
    have hmissing : final.missing (g.typeDef d) = final.missing d := by
      rw [Coverage.missing, Coverage.missing, variantNames_typeDef]
    simp only [Bool.not_true, Bool.false_eq_true, if_false, Prod.map_apply, id_eq, hmissing]
    cases final.missing d with
    | nil => rfl
    | cons first others =>
      rw [findings_append, hone _ rfl]
      rfl

end Coverage

lemma armSites_arms (p : Int) (as : List Arm) :
    MatchSite.armSites p (g.arms as) = (MatchSite.armSites p as).map g.armSite := by
  rw [arms_eq_map]
  induction as generalizing p with
  | nil => rfl
  | cons a as ih =>
    have hwidth : (g.arm a).width = a.width := by
      obtain ⟨variant, b, binders, byRef, loc⟩ := a
      rw [arm, Arm.width, Arm.width, width_block]
    rw [List.map_cons, MatchSite.armSites, MatchSite.armSites, hwidth, ih, variant_arm, loc_arm]
    rfl

variable {c : Context} {p q : Program} {f : Function} {o : Options}

variable (hg : g.coverage = true)

include hg

variable (h : g.OnContext c q)

include h

lemma checkSelection_context (e : Event) :
    (g.context q c).checkSelection (g.event e) = g.findings <$> c.checkSelection e := by
  obtain ⟨kind, label, pos, node, scopeKind⟩ := e
  cases kind with
  | enter => cases node <;> rfl
  | exit => cases node <;> rfl
  | step =>
    cases node with
    | stmt s =>
      cases s with
      | select scrutinee arms type loc =>
        simp only [event, node, stmt, checkSelection, armSites_arms]
        rw [show (g.context q c).typing = g.typing q c.typing from rfl,
          show (g.context q c).tree = g.tree c.tree from rfl,
          scrutineeType_typing h.typing (resolve_tree label)]
        refine Fault.bind_map fun ty => ?_
        simp only [ty_eq_unknown_iff]
        rw [apply_ite (g.findings <$> ·)]
        congr 1
        rw [(onTable h.typing).aggregate?, (onTable h.typing).describeTy]
        refine Fault.bind_map fun d? => ?_
        cases d? with
        | some d =>
          exact congrArg Except.ok
            (check_matchSite d hg { pos, arms := MatchSite.armSites (pos + 1) arms, span := loc })
        | none =>
          refine Fault.bind_same fun typeName => congrArg Except.ok ?_
          exact (findings_cons_of_coverage hg pos loc (v := .nonVariantScrutinee typeName) rfl
            []).symm
      | _ => rfl
    | _ => rfl

lemma checkSelections_context (es : List Event) :
    (g.context q c).checkSelections (es.map g.event) = g.findings <$> c.checkSelections es := by
  induction es with
  | nil => rfl
  | cons e es ih =>
    rw [List.map_cons, checkSelections, checkSelections,
      checkSelection_context hg h, ih]
    exact Fault.bind_map fun here => Fault.bind_map fun later =>
      congrArg Except.ok (findings_append here later).symm

/-! ### Reports -/

variable (g) in
def report (r : Report) : Report where
  function := r.function
  findings := g.findings r.findings
  drops := r.drops
  tree := g.tree r.tree

lemma streams_context :
    (g.context q c).streams = Prod.map g.session (List.map g.findings) <$> c.streams := by
  have hon : (g.context q c).options.checkExhaustiveness = c.options.checkExhaustiveness := by
    simp [context, options, hg]
  rw [streams, streams, run_context h]
  refine Fault.bind_map fun s => ?_
  rw [show (g.context q c).tree.events = c.tree.events.map g.event from rfl,
    checkSelections_context hg h, hon]
  split
  · exact Fault.bind_map fun coverage => rfl
  · rfl

lemma report_context : (g.context q c).report = g.report <$> c.report := by
  rw [Context.report, Context.report, streams_context hg h]
  refine Fault.bind_map fun k => congrArg Except.ok ?_
  obtain ⟨s, streams⟩ := k
  exact congrArg (Report.mk c.function.name · s.drops (g.tree c.tree)) (collect_findings streams)

omit h

omit hg in
lemma build_function (h : g.OnProgram p q) :
    build q (g.function f) (g.options o) = g.context q <$> build p f o := by
  rw [build, build, ofFunction_function]
  refine Fault.bind_map fun t => ?_
  rw [ofTree_tree h]
  exact Fault.bind_map fun m => rfl

omit hg in
lemma onContext_of_build (h : g.OnProgram p q) (hc : build p f o = .ok c) : g.OnContext c q := by
  obtain ⟨hprogram, htyping⟩ := programs_of_build hc
  exact ⟨by rwa [hprogram], by rwa [htyping]⟩

theorem analyzeFunction_function (h : g.OnProgram p.warm q.warm) :
    q.analyzeFunction (g.function f) (g.options o) = g.report <$> p.analyzeFunction f o := by
  have hreport : (Context.build q.warm (g.function f) (g.options o)).bind Context.report =
      g.report <$> (Context.build p.warm f o).bind Context.report := by
    rw [build_function h]
    cases hc : build p.warm f o with
    | error fault => rfl
    | ok c => exact report_context hg (onContext_of_build h hc)
  rw [Program.analyzeFunction, Program.analyzeFunction, hreport]
  cases (Context.build p.warm f o).bind Context.report <;> rfl

end Guise

end Ownership
