import Ownership.Proofs.Scope.Enclosing

/-!
# Ranges of scopes and loops

The events of a function stand at consecutive positions. Of two scopes one lies strictly inside the
other one or they are apart, and so a scope encloses exactly those that lie inside its positions. A
loop begins at its test and ends with the scope of its body, and so it is nested in every scope and
every other loop, or around it, or apart from it.
-/

namespace Ownership

open List

def Event.isTest (e : Event) : Bool :=
  match e.stmt? with
  | some (.loop ..) => true
  | _ => false

/-- Whether the positions from `a` to `b` and those from `c` to `d` are apart, or some of them are
all among the others. -/
def Laminar (a b c d : Int) : Prop := b < c ∨ d < a ∨ (a ≤ c ∧ d ≤ b) ∨ (c ≤ a ∧ b ≤ d)

/-! ### The loops of a body -/

/-- Whether the test of a loop and the entry and the exit of its body are among events. -/
def LoopRange.Occurs (l : LoopRange) (es : List Event) : Prop :=
  ∃ test body loc, .test l.start test body loc ∈ es ∧
    .enter (l.start + 1) (.stmt (.block body)) .loopBody ∈ es ∧
    .exit (l.start + 1) l.stop (.stmt (.block body)) ∈ es

lemma LoopRange.Occurs.mono {l : LoopRange} {es es' : List Event} (h : l.Occurs es)
    (hsub : ∀ e ∈ es, e ∈ es') : l.Occurs es' := by
  obtain ⟨test, body, loc, htest, henter, hexit⟩ := h
  exact ⟨test, body, loc, hsub _ htest, hsub _ henter, hsub _ hexit⟩

namespace Skeleton

variable {part : Part} {k : Skeleton} {lo hi : Int}

/-- A body has one loop for each test. -/
lemma Laid.tests (h : Laid part k lo hi) :
    (k.loops.map (·.start)).Perm ((k.events.filter (·.isTest)).map (·.pos)) := by
  induction h with
  | nil | empty => exact .refl _
  | @simple p stmt hstmt =>
    cases stmt with
    | loop test body loc => exact absurd rfl (hstmt test body loc)
    | _ => exact .refl _
  | cons _ _ ihk ihl | fork _ _ ihk ihl =>
    simpa only [loops, events, map_append, filter_append] using ihk.append ihl
  | block _ ih | scope _ ih | branch _ ih | select _ ih | arm _ ih =>
    simpa [loops, events, Event.isTest, Event.stmt?, Event.enter, Event.exit, Event.step] using ih
  | @loop p q k test body loc _ ih =>
    have hinner := (perm_append_singleton p (k.loops.map (·.start))).trans (ih.cons p)
    simpa [loops, events, Event.isTest, Event.stmt?, Event.enter, Event.exit, Event.step,
      Event.test]
      using hinner

/-- The body of a loop is entered behind its test, and the loop ends where its body is left. -/
lemma Laid.occurs (h : Laid part k lo hi) {l : LoopRange} (hl : l ∈ k.loops) :
    l.Occurs k.events := by
  induction h with
  | nil | empty | simple => cases hl
  | cons _ _ ihk ihl | fork _ _ ihk ihl =>
    rcases mem_append.mp hl with hl | hl
    · exact (ihk hl).mono fun e he => mem_append_left _ he
    · exact (ihl hl).mono fun e he => mem_append_right _ he
  | block _ ih | scope _ ih =>
    exact (ih hl).mono fun e he => mem_cons_of_mem _ (mem_append_left _ he)
  | branch _ ih | select _ ih => exact (ih hl).mono fun e he => mem_cons_of_mem _ he
  | arm _ ih =>
    refine (ih hl).mono fun e he => ?_
    exact mem_cons_of_mem _ (mem_append_left _ (mem_cons_of_mem _ he))
  | loop _ ih =>
    rcases mem_append.mp hl with hl | hl
    · refine (ih hl).mono fun e he => ?_
      exact mem_cons_of_mem _ (mem_cons_of_mem _ (mem_append_left _ he))
    · obtain rfl := mem_singleton.mp hl
      exact ⟨_, _, _, mem_cons_self, by simp [events], by simp [events, stop]⟩

end Skeleton

lemma Function.tests_events (f : Function) :
    f.events.filter (·.isTest) = f.skeleton.events.filter (·.isTest) := by
  have hparams : (Param.eventsAll 1 f.params).filter (·.isTest) = [] := by
    refine filter_eq_nil_iff.mpr fun e he => ?_
    have hnone := filterMap_eq_nil_iff.mp (Param.listing_eventsAll 1 f.params).stmts e he
    simp [Event.isTest, hnone]
  have hexit : [Event.exit 0 f.stop .function].filter (·.isTest) = [] := rfl
  rw [Function.events_skeleton, events, filter_cons_of_neg (by decide), filter_append,
    filter_append, hparams, hexit, append_nil, nil_append]

namespace ScopeTree

variable {f : Function} {t : ScopeTree}

namespace Nests

variable {es : List Event} {A B : Scope} (h : Nests es t)

include h

lemma start_lt_stop (hA : A ∈ t.scopes) : A.start < A.stop := by
  obtain ⟨-, -, -, -, -, hlt⟩ := h.left A hA
  exact hlt

lemma start_ne_stop (hA : A ∈ t.scopes) (hB : B ∈ t.scopes) : A.start ≠ B.stop := by
  obtain ⟨e, he, hk, -, hpos, -⟩ := h.left B hB
  exact hpos ▸ h.start_ne he (by simp [hk]) hA

/-- Two scopes lie apart, or one inside the other. -/
lemma laminar (hA : A ∈ t.scopes) (hB : B ∈ t.scopes) : Laminar A.start A.stop B.start B.stop := by
  have hne := h.start_ne_stop hA hB
  have hne' := h.start_ne_stop hB hA
  unfold Laminar
  rcases lt_trichotomy A.start B.start with hstarts | hstarts | hstarts
  · have hin := h.layered A hA B hB hstarts
    omega
  · obtain rfl := h.eq_of_start hA hB hstarts
    omega
  · have hin := h.layered B hB A hA hstarts
    omega

/-- A loop and a scope are nested or apart: no scope begins or ends at the test, and the scope of
the body is nested in the other one, or around it, or apart from it. -/
lemma laminar_loop {e : Event} (he : e ∈ es) (hk : e.kind = .step) (hB : B ∈ t.scopes)
    (hstart : B.start = e.pos + 1) (hA : A ∈ t.scopes) : Laminar e.pos B.stop A.start A.stop := by
  have hAstart := h.start_ne he (by simp [hk]) hA
  have hAstop := h.stop_ne he (by simp [hk]) hA
  have hne := h.start_ne_stop hB hA
  have hsame : A.start = B.start → A.stop = B.stop := fun heq => by rw [h.eq_of_start hA hB heq]
  have hbody := h.laminar hB hA
  unfold Laminar at hbody ⊢
  omega

end Nests

variable (h : ofFunction f = .ok t)

include h

lemma encloses_iff_inside {A B : Scope} (hA : A ∈ t.scopes) (hB : B ∈ t.scopes) :
    A.encloses B = true ↔ A.start ≤ B.start ∧ B.stop ≤ A.stop := by
  have hnests := nests_of_ofFunction h
  rw [encloses_iff h hA hB]
  constructor
  · rintro (rfl | ⟨hstart, hstop⟩)
    · exact ⟨le_rfl, le_rfl⟩
    · exact ⟨hstart.le, (hnests.layered A hA B hB hstart hstop).le⟩
  · rintro ⟨hstart, hstop⟩
    have hlt := hnests.start_lt_stop hB
    rcases hstart.eq_or_lt with heq | hstart
    · exact .inl (hnests.eq_of_start hA hB heq)
    · exact .inr ⟨hstart, by omega⟩

/-- The children of a scope lie inside it, and no other scope is between. -/
lemma mem_childrenOf {P C : Scope} (hP : P ∈ t.scopes) (hC : C ∈ t.childrenOf P.id) :
    C ∈ t.scopes ∧ P.start < C.start ∧ C.stop < P.stop ∧
      ∀ o ∈ C.outer, o ≤ P.id := by
  have hnests := nests_of_ofFunction h
  obtain ⟨hmem, hparent⟩ := mem_filter.mp hC
  have hhead : C.outer.head? = some P.id := of_decide_eq_true hparent
  obtain ⟨rest, hrest⟩ := head?_eq_some_iff.mp hhead
  obtain ⟨hsorted, houter⟩ := outer_of_ofFunction h hmem
  obtain ⟨A, hA, hstart, hstop⟩ := (houter P.id).mp (hrest ▸ mem_cons_self)
  obtain rfl := Option.some.inj (hA.symm.trans (hnests.getElem?_id hP))
  refine ⟨hmem, hstart, hnests.layered A hP C hmem hstart hstop, fun o ho => ?_⟩
  rw [hrest] at hsorted ho
  rcases mem_cons.mp ho with rfl | ho
  · exact le_rfl
  · exact ((pairwise_cons.mp hsorted).1 o ho).le

/-- The children of a scope follow one another. -/
lemma pairwise_childrenOf {P : Scope} (hP : P ∈ t.scopes) :
    (t.childrenOf P.id).Pairwise fun C C' => C.stop < C'.start := by
  have hnests := nests_of_ofFunction h
  have hscopes : t.scopes.Pairwise fun C C' => C.start < C'.start := by
    refine pairwise_iff_getElem.mpr fun i j hi hj hij => ?_
    refine (hnests.ascending _ (getElem_mem hi) _ (getElem_mem hj)).mp ?_
    rw [(hnests.known i _ (getElem?_eq_getElem hi)).1,
      (hnests.known j _ (getElem?_eq_getElem hj)).1]
    exact hij
  refine (hscopes.sublist filter_sublist).imp_of_mem fun {C C'} hC hC' hlt => ?_
  obtain ⟨hC, hPC, -⟩ := mem_childrenOf h hP hC
  obtain ⟨hC', -, -, hlast⟩ := mem_childrenOf h hP hC'
  have hne := hnests.start_ne_stop hC' hC
  by_contra hge
  -- Otherwise the first scope is around the second one, but it was entered after their parent.
  have houter : C.id ∈ C'.outer :=
    ((outer_of_ofFunction h hC').2 C.id).mpr ⟨C, hnests.getElem?_id hC, hlt, by omega⟩
  have hle := hlast C.id houter
  have hlt' := (hnests.ascending P hP C hC).mpr hPC
  omega

/-- A binding belongs to the innermost of the scopes around its declaration. -/
lemma exists_innermost {x : Binding} (hx : x ∈ t.bindings) :
    ∃ X ∈ t.scopes, t.owner? x = some X ∧ X.start < x.declaredAt ∧ x.declaredAt < X.stop ∧
      ∀ S ∈ t.scopes, S.start ≤ x.declaredAt → x.declaredAt ≤ S.stop → S.encloses X = true := by
  have hnests := nests_of_ofFunction h
  obtain ⟨X, hX, howner, -, hXstop, hbefore, hbehind⟩ := hnests.exists_owner hx
  refine ⟨X, hX, howner, hbefore, hbehind, fun S hS hstart hstop => ?_⟩
  obtain ⟨d, hd, hk, hpos, -⟩ := hnests.declared x hx
  have hstart' := hnests.start_ne hd (by simp [hk]) hS
  have hstop' := hnests.stop_ne hd (by simp [hk]) hS
  have hle := hnests.innermost x hx S hS (by omega) (by omega)
  rw [hXstop] at hle
  refine (encloses_iff_inside h hS hX).mpr ⟨?_, hle⟩
  by_contra hlt
  have := hnests.layered X hX S hS (by omega) (by omega)
  omega

/-- Every loop has a test and, right after it, a body. -/
lemma exists_loopBody {l : LoopRange} (hl : l ∈ t.loops) :
    ∃ test body loc, .test l.start test body loc ∈ t.events ∧
      .enter (l.start + 1) (.stmt (.block body)) .loopBody ∈ t.events ∧
      ∃ B ∈ t.scopes, B.start = l.start + 1 ∧ B.stop = l.stop := by
  have hnests := nests_of_ofFunction h
  rw [loops_ofFunction h] at hl
  obtain ⟨test, body, loc, htest, henter, hexit⟩ :=
    (Stmt.laid_skeletonAll f.bodyStart f.body.stmts).occurs hl
  have hsub : ∀ e ∈ f.skeleton.events, e ∈ f.events := fun e he => by
    rw [Function.events_skeleton] at he
    exact mem_cons_of_mem _ (mem_append_left _ (mem_append_right _ he))
  rw [hnests.events]
  exact ⟨test, body, loc, hsub _ htest, hsub _ henter, hnests.exits _ (hsub _ hexit) rfl⟩

omit h

/-- The events of a function stand at the positions from zero on. Every scope starts before it
stops, the scopes directly inside it lie strictly inside it and one after another, two scopes are
nested or apart, and a scope encloses those that lie inside its positions. A binding belongs to the
innermost scope around its declaration. There is one loop for every test, from there to the end of
the scope of its body, and two loops, or a loop and a scope, are nested or apart. -/
theorem laminar_of_ofFunction (h : ofFunction f = .ok t) :
    (∀ (i : Nat) (e : Event), t.events[i]? = some e → e.pos = i) ∧
    (∀ S ∈ t.scopes, S.start < S.stop) ∧
    (∀ P ∈ t.scopes, (∀ C ∈ t.childrenOf P.id, P.start < C.start ∧ C.stop < P.stop) ∧
      (t.childrenOf P.id).Pairwise fun C C' => C.stop < C'.start) ∧
    (∀ A ∈ t.scopes, ∀ B ∈ t.scopes, Laminar A.start A.stop B.start B.stop ∧
      (A.encloses B = true ↔ A.start ≤ B.start ∧ B.stop ≤ A.stop)) ∧
    (∀ x ∈ t.bindings, ∃ X ∈ t.scopes, t.owner? x = some X ∧ X.start < x.declaredAt ∧
      x.declaredAt < X.stop ∧ ∀ S ∈ t.scopes, S.start ≤ x.declaredAt → x.declaredAt ≤ S.stop →
        S.encloses X = true) ∧
    (t.loops.map (·.start)).Perm ((t.events.filter (·.isTest)).map (·.pos)) ∧
    ∀ l ∈ t.loops,
      (∃ test body loc, .test l.start test body loc ∈ t.events ∧
        .enter (l.start + 1) (.stmt (.block body)) .loopBody ∈ t.events ∧
        ∃ B ∈ t.scopes, B.start = l.start + 1 ∧ B.stop = l.stop) ∧
      (∀ m ∈ t.loops, Laminar l.start l.stop m.start m.stop) ∧
      ∀ S ∈ t.scopes, Laminar l.start l.stop S.start S.stop := by
  have hnests := nests_of_ofFunction h
  refine ⟨fun i e he => ?_, fun S hS => hnests.start_lt_stop hS,
    fun P hP => ⟨fun C hC => ?_, pairwise_childrenOf h hP⟩,
    fun A hA B hB => ⟨hnests.laminar hA hB, encloses_iff_inside h hA hB⟩,
    fun x hx => exists_innermost h hx, ?_,
    fun l hl => ⟨exists_loopBody h hl, fun m hm => ?_, fun S hS => ?_⟩⟩
  · rw [hnests.events] at he
    rw [f.consecutive_events.getElem? he, Int.zero_add]
  · obtain ⟨-, hstart, hstop, -⟩ := mem_childrenOf h hP hC
    exact ⟨hstart, hstop⟩
  · rw [hnests.events, f.tests_events, loops_ofFunction h]
    exact (Stmt.laid_skeletonAll f.bodyStart f.body.stmts).tests
  · obtain ⟨hi, hspans⟩ := f.spans_skeleton
    rw [loops_ofFunction h] at hl hm
    unfold Laminar
    rcases hspans.loops_cases hl hm with rfl | hcases
    · omega
    · omega
  · obtain ⟨test, body, loc, htest, -, B, hB, hstart, hstop⟩ := exists_loopBody h hl
    rw [hnests.events] at htest
    rw [← hstop]
    exact hnests.laminar_loop htest rfl hB hstart hS

end ScopeTree

/-- A function with a block, and a loop in the body of another one behind it. -/
def Function.nesting : Function where
  name := "nesting"
  params := [⟨"c", some ⟨2⟩, false, .unknown⟩]
  body := .mk [
    .block (.mk [.declare "a" none (.var "c" .unknown) false .unknown] .unknown),
    .loop (.var "c" .unknown) (.mk [
      .declare "b" none (.var "c" .unknown) false .unknown,
      .loop (.var "c" .unknown) (.mk [.evaluate (.var "b" .unknown) .unknown] .unknown) .unknown]
      .unknown) .unknown] .unknown

namespace ScopeTree

/-- The block and the outer body are next to each other, the inner loop is in the outer body, and
the second variable belongs to it. -/
theorem laminar_of_ofFunction_nesting : ∃ t, ofFunction .nesting = .ok t ∧
    t.scopes.map (fun S => (S.start, S.stop)) = [(0, 13), (2, 4), (6, 12), (9, 11)] ∧
    t.loops.map (fun l => (l.start, l.stop)) = [(8, 11), (5, 12)] ∧
    t.bindings.map (fun x => (x.declaredAt, x.scope)) = [(1, 0), (3, 1), (7, 2)] ∧
    (∀ A ∈ t.scopes, ∀ B ∈ t.scopes, A.encloses B = true ↔ A.start ≤ B.start ∧ B.stop ≤ A.stop) ∧
    (t.loops.map (·.start)).Perm ((t.events.filter (·.isTest)).map (·.pos)) ∧
    ∀ l ∈ t.loops, ∀ S ∈ t.scopes, Laminar l.start l.stop S.start S.stop := by
  have hok : (ofFunction .nesting).toOption.any (fun t => decide (
      t.scopes.map (fun S => (S.start, S.stop)) = [(0, 13), (2, 4), (6, 12), (9, 11)] ∧
      t.loops.map (fun l => (l.start, l.stop)) = [(8, 11), (5, 12)] ∧
      t.bindings.map (fun x => (x.declaredAt, x.scope)) = [(1, 0), (3, 1), (7, 2)])) = true := by
    decide +kernel
  obtain ⟨t, ht, htest⟩ := Fault.exists_ok hok
  obtain ⟨hscopes, hloops, hbindings⟩ := of_decide_eq_true htest
  obtain ⟨-, -, -, hencloses, -, htests, hranges⟩ := laminar_of_ofFunction ht
  exact ⟨t, ht, hscopes, hloops, hbindings, fun A hA B hB => (hencloses A hA B hB).2,
    htests, fun l hl => (hranges l hl).2.2⟩

end ScopeTree

end Ownership
