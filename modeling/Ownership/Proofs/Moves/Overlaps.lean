import Ownership.Proofs.Loans.Settled
import Ownership.Types.Script

/-!
# Moved places that overlap a used one

Two places overlap if one contains the other, or if they part where one goes through a dereference
and the other into a field: a field behind a box can be spelled in both ways. A use looks only for
moved places that contain the used one or lie in it. It is therefore refused because of a move
exactly when a moved place overlaps the used one without parting from it at a dereference.
-/

namespace Ownership

open List

/-! ### Places that part -/

namespace Projection

/-- Whether two paths are the same up to a point where one goes through a dereference and the other
into a field. -/
def PartAtDeref (as bs : List Projection) : Prop :=
  ∃ common name rest rest',
    as = common ++ deref :: rest ∧ bs = common ++ field name :: rest' ∨
      as = common ++ field name :: rest ∧ bs = common ++ deref :: rest'

variable {as bs : List Projection}

lemma overlap_cons_self (a : Projection) : overlap (a :: as) (a :: bs) = overlap as bs := by
  cases a <;> simp [overlap]

lemma partAtDeref_cons_self (a : Projection) :
    PartAtDeref (a :: as) (a :: bs) ↔ PartAtDeref as bs := by
  constructor
  · rintro ⟨common, name, rest, rest', h⟩
    cases common with
    | nil => cases a <;> simp at h
    | cons x common =>
      refine ⟨common, name, rest, rest', h.imp (fun h => ?_) fun h => ?_⟩
      · exact ⟨(cons.inj h.1).2, (cons.inj h.2).2⟩
      · exact ⟨(cons.inj h.1).2, (cons.inj h.2).2⟩
  · rintro ⟨common, name, rest, rest', h⟩
    exact ⟨a :: common, name, rest, rest', by simpa using h⟩

lemma PartAtDeref.prefix_free (h : PartAtDeref as bs) : ¬as <+: bs ∧ ¬bs <+: as := by
  obtain ⟨common, name, rest, rest', ⟨rfl, rfl⟩ | ⟨rfl, rfl⟩⟩ := h
  · simp [prefix_append_right_inj, cons_prefix_cons]
  · simp [prefix_append_right_inj, cons_prefix_cons]

/-- Paths overlap if one begins with the other, or if they part at a dereference. -/
lemma overlap_iff : overlap as bs = true ↔ as <+: bs ∨ bs <+: as ∨ PartAtDeref as bs := by
  induction as generalizing bs with
  | nil => simp [overlap]
  | cons a as ih =>
    cases bs with
    | nil => simp [overlap]
    | cons b bs =>
      by_cases hab : a = b
      · subst hab
        simp [overlap_cons_self, partAtDeref_cons_self, ih]
      · -- The first steps differ, so neither path continues the other.
        have hne : ¬b = a := Ne.symm hab
        simp only [cons_prefix_cons, hab, hne, false_and, false_or]
        cases a with
        | deref =>
          cases b with
          | deref => exact absurd rfl hab
          | field name => exact iff_of_true rfl ⟨[], name, as, bs, .inl ⟨rfl, rfl⟩⟩
        | field name =>
          cases b with
          | deref => exact iff_of_true rfl ⟨[], name, as, bs, .inr ⟨rfl, rfl⟩⟩
          | field other =>
            refine iff_of_false (by simp [overlap, hab]) ?_
            rintro ⟨common, x, rest, rest', h⟩
            cases common with
            | nil => simp at h
            | cons y common =>
              rcases h with ⟨h, h'⟩ | ⟨h, h'⟩
              · exact hab ((cons.inj h).1.trans (cons.inj h').1.symm)
              · exact hab ((cons.inj h).1.trans (cons.inj h').1.symm)

end Projection

namespace Place

/-- Whether two places have one base and part where one goes through a dereference and the other
into a field. -/
def PartsAtDeref (p q : Place) : Prop := p.base = q.base ∧ Projection.PartAtDeref p.path q.path

variable {p q : Place}

lemma overlaps_iff :
    p.overlaps q = true ↔ q.covers p = true ∨ p.covers q = true ∨ p.PartsAtDeref q := by
  simp only [overlaps, Bool.and_eq_true, decide_eq_true_eq, Projection.overlap_iff, covers_iff,
    PartsAtDeref]
  tauto

lemma PartsAtDeref.not_covers (h : p.PartsAtDeref q) :
    ¬(q.covers p = true ∨ p.covers q = true) := by
  obtain ⟨hpq, hqp⟩ := h.2.prefix_free
  rintro (hc | hc)
  · exact hqp (covers_iff.mp hc).2
  · exact hpq (covers_iff.mp hc).2

end Place

/-! ### Refusals -/

/-- A place can be used if its base has a value and every moved place that overlaps it parts from
it at a dereference. -/
lemma Flow.usable_iff_overlaps {f : Flow} {p : Place} : f.Usable p ↔ f.baseUninit p = false ∧
    ∀ q, f.isMoved q = true → p.overlaps q = true → p.PartsAtDeref q := by
  have hmoved : (∀ q, q.covers p = true ∨ p.covers q = true → f.stateOf q ≠ .moved) ↔
      ∀ q, f.isMoved q = true → p.overlaps q = true → p.PartsAtDeref q := by
    refine forall_congr' fun q => ?_
    rw [isMoved_iff, Place.overlaps_iff]
    constructor
    · rintro h hq (hc | hc | hparts)
      · exact absurd hq (h (.inl hc))
      · exact absurd hq (h (.inr hc))
      · exact hparts
    · intro h hc hq
      exact (h hq (hc.imp_right .inl)).not_covers hc
  rw [← hmoved, ← Bool.not_eq_true, baseUninit_iff]
  exact ⟨fun h => ⟨h.initialized, h.unmoved⟩, fun h => ⟨h.1, h.2⟩⟩

namespace Access

/-- The place that an access uses: reads, moves or borrows. -/
def used? : Access → Option Place
  | read p | move p | lend p _ => some p
  | write _ => none

/-- What is reported for an access that is refused. -/
def refusal (f : Flow) (pos : Int) (span : Span) (r : Refusal) : Access → Finding
  | read p | move p | write p => f.useFinding p pos span r
  | lend p _ => f.borrowFinding p pos span r

end Access

lemma Expr.requests_of_place? {e : Expr} {s : EvalScope} {p : Place} {kept : Bool}
    (h : e.place? s.meaning = some p) :
    e.requests s kept = [.place .take p (e.loc.orElse s.span) kept] := by
  cases e with
  | var name loc | field e name loc | deref e loc => simp [requests, takeOr, h]
  | _ => cases h

namespace Context

variable {c : Context} {s : Session} {p : Place} {a : Access} {pos : Int} {span : Span}

/-- Whether an access is rejected: it does nothing but report that its place cannot be used. -/
def Rejects (c : Context) (pos : Int) (span : Span) (s : Session) (a : Access) : Prop :=
  ∃ p r, a.used? = some p ∧ s.flow.refusal? p = some r ∧
    c.access pos span s a = .ok ([], s.report (a.refusal s.flow pos span r))

lemma access_of_refusal (hc : c.tracksLoans = true) (ha : a.used? = some p) {r : Refusal}
    (hr : s.flow.refusal? p = some r) :
    c.access pos span s a = .ok ([], s.report (a.refusal s.flow pos span r)) := by
  cases a with
  | write q => cases ha
  | read q =>
    cases ha
    simp [access, read, hr, Access.refusal]
  | move q =>
    cases ha
    simp [access, move, hr, Access.refusal]
  | lend q kind =>
    cases ha
    simp [access, lend, hc, hr, Access.refusal]

lemma rejects_iff (hc : c.tracksLoans = true) (ha : a.used? = some p) :
    c.Rejects pos span s a ↔ ¬s.flow.Usable p := by
  rw [← Flow.refusal?_eq_none_iff]
  constructor
  · rintro ⟨q, r, hq, hr, -⟩ hnone
    obtain rfl := Option.mem_unique ha hq
    rw [hnone] at hr
    cases hr
  · intro hne
    obtain ⟨r, hr⟩ := Option.ne_none_iff_exists'.mp hne
    exact ⟨p, r, ha, hr, access_of_refusal hc ha hr⟩

/-! ### Functions -/

section Functions

variable {program : Program} {f : Function} {options : Options} {s₀ u v : Session} {e : Event}

variable (hbuild : build program f options = .ok c) (h₀ : c.initial = .ok s₀) (hrun : c.run = .ok s)

include hbuild h₀ hrun

lemma exists_visit (he : e ∈ f.skeleton.visited) : ∃ u, (e, u) ∈ f.skeleton.visits c s₀ := by
  obtain ⟨hc, hr, rfl⟩ := build_fields hbuild
  obtain ⟨s₀', s₁, h₀', h₁, -⟩ := run_cases hrun
  obtain rfl := ok_inj h₀ h₀'
  rw [← Skeleton.map_fst_visits hc hr _ h₁ (initial_fields h₀).2.1] at he
  obtain ⟨⟨e, u⟩, hu, rfl⟩ := mem_map.mp he
  exact ⟨u, hu⟩

lemma exists_finding_of_tries (hu : (e, u) ∈ f.skeleton.visits c s₀) (htries : c.Tries e u a v)
    (ha : a.used? = some p) {r : Refusal} (hr : v.flow.refusal? p = some r) :
    ∃ span, ∃ g ∈ s.findings, (a.refusal v.flow e.pos span r).repeats g = true := by
  obtain ⟨-, span, k, hk, hkept⟩ := exists_access_of_tries hbuild h₀ hrun hu htries
  rw [access_of_refusal (build_fields hbuild).1 ha hr] at hk
  cases hk
  obtain ⟨g, hg, hrepeats⟩ := v.exists_repeats_report (a.refusal v.flow e.pos span r)
  exact ⟨span, g, hkept.subset hg, hrepeats⟩

end Functions

/-- A use of a place is rejected exactly when its binding has no value or a moved place overlaps it
without parting from it at a dereference, whatever the state. What the walk of a function tries to
use in such a state is among its findings. -/
theorem use_rejected_iff_overlaps_moved {program : Program} {f : Function} {options : Options}
    (hbuild : build program f options = .ok c) :
    (∀ s a p pos span, a.used? = some p → (c.Rejects pos span s a ↔ s.flow.baseUninit p = true ∨
      ∃ q, s.flow.isMoved q = true ∧ p.overlaps q = true ∧ ¬p.PartsAtDeref q)) ∧
    ∀ s₀ s, c.initial = .ok s₀ → c.run = .ok s → ∀ e u, (e, u) ∈ f.skeleton.visits c s₀ →
      ∀ a v p q, c.Tries e u a v → a.used? = some p → v.flow.isMoved q = true →
        p.overlaps q = true → ¬p.PartsAtDeref q → ∃ r span, v.flow.refusal? p = some r ∧
          ∃ g ∈ s.findings, (a.refusal v.flow e.pos span r).repeats g = true := by
  have hc := (build_fields hbuild).1
  refine ⟨fun s a p pos span ha => ?_, ?_⟩
  · rw [rejects_iff hc ha, Flow.usable_iff_overlaps, not_and_or, Bool.not_eq_false]
    simp only [not_forall, exists_prop]
  · intro s₀ s h₀ hrun e u hu a v p q htries ha hq hov hparts
    have hne : v.flow.refusal? p ≠ none := fun hnone =>
      hparts ((Flow.usable_iff_overlaps.mp (Flow.refusal?_eq_none_iff.mp hnone)).2 q hq hov)
    obtain ⟨r, hr⟩ := Option.ne_none_iff_exists'.mp hne
    obtain ⟨span, g, hg⟩ := exists_finding_of_tries hbuild h₀ hrun hu htries ha hr
    exact ⟨r, span, hr, g, hg⟩

end Context

/-! ### A field behind a box -/

/-- A program with a type of boxes, which hold a text each in a field. -/
def Program.boxes : Program where
  types := (TypeTable.empty.run [.ensureString, .declareStruct "Cell" (some [⟨"text", ⟨1⟩⟩]),
    .ensureBox ⟨2⟩]).2

/-- Takes the text out of a box, and then takes something else. -/
def Function.unboxing (second : Expr) : Function where
  name := "unboxing"
  params := [⟨"b", some ⟨3⟩, false, .unknown⟩]
  body := .mk [.declare "x" none (.field (.var "b" .unknown) "text" .unknown) false .unknown,
    .declare "y" none second false .unknown] .unknown

/-- The event in which `unboxing` takes something else. -/
def Event.takingSecond (second : Expr) : Event :=
  .step 3 (.stmt (.declare "y" none second false .unknown))

/-- The text in the box, spelled with a dereference. -/
def Expr.unboxed : Expr := .field (.deref (.var "b" .unknown) .unknown) "text" .unknown

namespace Context

lemma exists_initial_run_of_test {program : Program} {f : Function} {options : Options}
    {test : Context × Session × Session → Bool}
    (h : ((build program f options >>= fun c => c.initial >>= fun s₀ =>
      (c, s₀, ·) <$> c.run).toOption.any test) = true) :
    ∃ c s₀ s, build program f options = .ok c ∧ c.initial = .ok s₀ ∧ c.run = .ok s ∧
      test (c, s₀, s) = true := by
  obtain ⟨r, hr, htest⟩ := Fault.exists_ok h
  obtain ⟨c, hbuild, hr⟩ := bind_eq_ok.mp hr
  obtain ⟨s₀, h₀, hr⟩ := bind_eq_ok.mp hr
  obtain ⟨s, hrun, rfl⟩ := map_eq_ok.mp hr
  exact ⟨c, s₀, s, hbuild, h₀, hrun, htest⟩

/-- How `unboxing` meets its second statement, if what that one takes is moved. -/
lemma exists_second_take (second : Expr) (test : Session → Place → Session → Bool)
    (h : ((build .boxes (.unboxing second) {} >>= fun c => c.initial >>= fun s₀ =>
      (c, s₀, ·) <$> c.run).toOption.any fun r =>
        (second.place? (r.1.meaning 3)).any fun p =>
          decide ((r.1.demanded p .take).toOption = some (.move p)) &&
            ((Function.unboxing second).skeleton.visits r.1 r.2.1).all fun v =>
              decide (v.1.pos ≠ 3) || test v.2 p r.2.2) = true) :
    ∃ c s₀ s u p, build .boxes (.unboxing second) {} = .ok c ∧ c.initial = .ok s₀ ∧ c.run = .ok s ∧
      (.takingSecond second, u) ∈ (Function.unboxing second).skeleton.visits c s₀ ∧
      c.Tries (.takingSecond second) u (.move p) (u.begin .unknown) ∧ test u p s = true := by
  obtain ⟨c, s₀, s, hbuild, h₀, hrun, htest⟩ := exists_initial_run_of_test h
  obtain ⟨p, hp, htest⟩ := (Option.any_eq_true _ _).mp htest
  obtain ⟨hmove, htest⟩ := Bool.and_eq_true_iff.mp htest
  have hvisited : Event.takingSecond second ∈ (Function.unboxing second).skeleton.visited :=
    mem_cons_of_mem _ mem_cons_self
  obtain ⟨u, hu⟩ := exists_visit hbuild h₀ hrun hvisited
  have hpos : (Event.takingSecond second).pos = 3 := rfl
  refine ⟨c, s₀, s, u, p, hbuild, h₀, hrun, hu, ⟨rfl, ?_⟩, ?_⟩
  · have hplace : second.place? (c.evalScope 3 .unknown).meaning = some p := hp
    change c.Asks 3 (second.requests (c.evalScope 3 .unknown) true) _ _ _
    rw [Expr.requests_of_place? hplace]
    exact .inl ⟨Fault.eq_ok_of_toOption (of_decide_eq_true hmove), rfl⟩
  · simpa [hpos] using all_eq_true.mp htest _ hu

/-- The box is taken after the text in it. The places overlap and do not part, so this is
rejected. -/
theorem use_rejected_iff_overlaps_moved_unboxing : ∃ c s₀ s u p q,
    build .boxes (.unboxing (.var "b" .unknown)) {} = .ok c ∧ c.initial = .ok s₀ ∧ c.run = .ok s ∧
    c.Tries (.takingSecond (.var "b" .unknown)) u (.move p) (u.begin .unknown) ∧
    u.flow.isMoved q = true ∧ p.overlaps q = true ∧ ¬p.PartsAtDeref q ∧
    c.Rejects 3 .unknown u (.move p) ∧ ∃ r span, u.flow.refusal? p = some r ∧
      ∃ g ∈ s.findings, (Access.refusal u.flow 3 span r (.move p)).repeats g = true := by
  obtain ⟨c, s₀, s, u, p, hbuild, h₀, hrun, hu, htries, htest⟩ :=
    exists_second_take (.var "b" .unknown)
      (fun u p _ => u.flow.isMoved (p.project (.field "text"))) (by decide +kernel)
  have hcovers :
      p.covers (p.project (.field "text")) = true := by simp [Place.covers, Place.project]
  have hov := Place.overlaps_of_covers hcovers
  have hparts : ¬p.PartsAtDeref (p.project (.field "text")) :=
    fun h => h.not_covers (.inr hcovers)
  obtain ⟨hrejects, hfound⟩ := use_rejected_iff_overlaps_moved hbuild
  exact ⟨c, s₀, s, u, p, _, hbuild, h₀, hrun, htries, htest, hov, hparts,
    (hrejects u (.move p) p 3 .unknown rfl).mpr (.inr ⟨_, htest, hov, hparts⟩),
    hfound s₀ s h₀ hrun _ u hu _ (u.begin .unknown) p _ htries rfl htest hov hparts⟩

/-- The text in a box is taken twice, the second time through a dereference. The places overlap, but
nothing is found. -/
theorem overlapping_use_accepted_unboxed : ∃ c s₀ s u p q,
    build .boxes (.unboxing .unboxed) {} = .ok c ∧ c.initial = .ok s₀ ∧ c.run = .ok s ∧
    c.Tries (.takingSecond .unboxed) u (.move p) (u.begin .unknown) ∧
    u.flow.isMoved q = true ∧ p.overlaps q = true ∧ ¬c.Rejects 3 .unknown u (.move p) ∧
    s.findings = [] := by
  obtain ⟨c, s₀, s, u, p, hbuild, h₀, hrun, -, htries, htest⟩ :=
    exists_second_take .unboxed (fun u p s => decide (u.flow.refusal? p = none ∧ s.findings = []) &&
      u.flow.states.entries.any fun q => decide (u.flow.isMoved q.1 = true ∧ p.overlaps q.1 = true))
      (by decide +kernel)
  obtain ⟨htest, hmoved⟩ := Bool.and_eq_true_iff.mp htest
  obtain ⟨hnone, hfindings⟩ := of_decide_eq_true htest
  obtain ⟨⟨q, st⟩, -, hq⟩ := any_eq_true.mp hmoved
  obtain ⟨hq, hov⟩ := of_decide_eq_true hq
  refine ⟨c, s₀, s, u, p, q, hbuild, h₀, hrun, htries, hq, hov, fun hrejects => ?_, hfindings⟩
  exact (rejects_iff (build_fields hbuild).1 rfl).mp hrejects (Flow.refusal?_eq_none_iff.mp hnone)

end Context

end Ownership
