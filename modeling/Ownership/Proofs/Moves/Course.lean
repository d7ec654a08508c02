import Ownership.Proofs.Checker.Requests
import Ownership.Proofs.Control.Skeleton
import Ownership.Proofs.Moves.Scopes

/-!
# The course of an event

All that a statement or the header of an arm does happens in a few kinds of steps at its position:
it begins, it makes accesses, it declares bindings, it hands loans to bindings and it reports those
that would leave the function. A loan that is handed over came with an access before, or a place
carries it whose base is named. A return leaves the function at the end.
-/

namespace Ownership

open List

/-! ### Requests -/

/-- Whether a request asks for a place whose base is the meaning of one of some names. -/
def Request.Based (meaning : String → Option Binding) (names : List String) : Request → Prop
  | place _ p _ _ => ∃ name ∈ names, meaning name = some p.base
  | fail _ => True

lemma Request.Of.based {s : EvalScope} {kept : Bool} {names : List String} {known : Prop}
    {r : Request} (h : r.Of s kept names known) : r.Based s.meaning names := by
  cases h with
  | place hp _ => exact hp
  | callee | foreign => exact trivial

namespace Expr

variable {s : EvalScope}

lemma based_requests (kept : Bool) (e : Expr) : ∀ r ∈ e.requests s kept, r.Based s.meaning e.vars :=
  fun r hr => (of_requests kept e r hr).based

lemma based_readRequests (e : Expr) : ∀ r ∈ e.readRequests s, r.Based s.meaning e.vars :=
  fun r hr => (of_readRequests e r hr).based

end Expr

namespace Context

variable {c : Context}

/-- Whether a place is based on the meaning of a variable of an event, or of the selection that the
header of an arm belongs to. -/
def Names (c : Context) (e : Event) (p : Place) : Prop :=
  (∃ name ∈ e.node.expressions.flatMap Expr.vars, c.meaning e.pos name = some p.base) ∨
    ∃ a sel, e.node = .arm a (some sel) ∧
      ∃ name ∈ sel.scrutinee.vars, c.meaning sel.label name = some p.base

lemma storage_cases {q : Place} {a : Access} (h : c.storage q = .ok a) :
    (∃ r, a = .read r) ∨ a = .write q := by
  obtain ⟨r, -, h⟩ := bind_eq_ok.mp h
  cases r with
  | some r => exact .inl ⟨r, (Except.ok.inj h).symm⟩
  | none => exact .inr (Except.ok.inj h).symm

/-! ### Trials -/

/-- How an event comes to try an access: one of its expressions asks for it, it assigns to its
target, it reads its scrutinee, or it is the header of an arm. -/
inductive Trial (c : Context) (e : Event) (s : Session) (a : Access) (u : Session) : Prop
  | asked {x : Expr} {rs : List Request} {loc : Span} (hx : x ∈ e.node.expressions)
      (hrs : ∀ r ∈ rs, r.Based (c.meaning e.pos) x.vars) (h : c.Asks e.pos rs (s.begin loc) a u)
  | stored {target value : Expr} {loc : Span} {k : List Nat × Session} {p : Place}
      (hn : e.node = .stmt (.assign target value loc))
      (hk : c.evaluate e.pos loc value (s.begin loc) = .ok k)
      (hp : target.place? (c.meaning e.pos) = some p) (h : c.storage p = .ok a) (hu : u = k.2)
  | inspected {p : Place} {loc : Span} (ha : a = .read p) (hu : u = s.begin loc)
  | header {arm : Arm} {sel : Selection} (hn : e.node = .arm arm (some sel))
      (h : c.ArmTries sel (c.touchable sel s) e.pos arm s a u)

lemma Tries.trial {e : Event} {s u : Session} {a : Access} (h : c.Tries e s a u) :
    c.Trial e s a u := by
  obtain ⟨-, h⟩ := h
  have hasked : ∀ {x : Expr} {loc : Span}, x ∈ e.node.expressions →
      c.Asks e.pos (x.requests (c.evalScope e.pos loc) true) (s.begin loc) a u → c.Trial e s a u :=
    fun {x loc} hx h => .asked hx (Expr.based_requests true x) h
  cases hn : e.node with
  | function | param p =>
    rw [hn] at h
    exact h.elim
  | arm arm sel =>
    rw [hn] at h
    cases sel with
    | none => exact h.elim
    | some sel => exact .header hn h
  | stmt stmt =>
    have hexprs : ∀ x ∈ stmt.expressions, x ∈ e.node.expressions := fun x hx => by rwa [hn]
    rw [hn] at h
    cases stmt with
    | block b | foreign kind => exact h.elim
    | declare name type value mutable loc | evaluate value loc | ret value loc =>
      exact hasked (hexprs value mem_cons_self) h
    | branch test yes no loc | loop test body loc =>
      exact .asked (hexprs test mem_cons_self) (Expr.based_readRequests test) h
    | assign target value loc =>
      rcases h with h | ⟨k, hk, p, hp, hstore, hu⟩
      · exact hasked (hexprs value (by simp [Stmt.expressions])) h
      · exact .stored hn hk hp hstore hu
    | select scrutinee arms type loc =>
      rw [NodeTries] at h
      split at h
      · exact .inspected h.1 h.2
      · exact hasked (hexprs scrutinee mem_cons_self) h

end Context

/-! ### Courses -/

namespace Context

/-- Steps at a position where some bindings are named: the accesses among them, with the sessions
that these meet, the numbers of the loans that are at hand before, the session before, and both
after. -/
inductive Course (c : Context) (pos : Int) (named : Binding → Prop) :
    List (Access × Session) → List Nat → Session → List Nat → Session → Prop
  | refl (held : List Nat) (s : Session) : Course c pos named [] held s held s
  | begin (held : List Nat) (s : Session) (loc : Span) :
    Course c pos named [] held s held (s.begin loc)
  | mark (held : List Nat) (s : Session) {b : Binding} {st : PlaceState}
      (hb : b ∈ c.tree.declaredBy pos) (hst : st ≠ .moved) :
      Course c pos named [] held s held (s.mark (.ofBinding b) st)
  | access (held : List Nat) {s : Session} {a : Access} {span : Span} {k : List Nat × Session}
      (h : c.access pos span s a = .ok k) (ha : ∀ p kind, a = .lend p kind → named p.base) :
      Course c pos named [(a, s)] held s (held ++ k.1) k.2
  | carry (held : List Nat) (s : Session) {p : Place} (hp : named p.base) :
      Course c pos named [] held s (held ++ c.carried p pos s) s
  | attach {held : List Nat} (s : Session) {ids : List Nat} {b : Binding} (hids : ids ⊆ held)
      (hb : b ∈ c.tree.declaredBy pos ∨ named b) :
      Course c pos named [] held s held (s.attach c.tree ids b pos)
  | dangle (held : List Nat) (s : Session) (l : Loan) (span : Span) :
      Course c pos named [] held s held (c.reportDangling l pos span true s)
  | append {as bs : List (Access × Session)} {held held' held'' : List Nat} {s m s' : Session}
      (h : Course c pos named as held s held' m) (h' : Course c pos named bs held' m held'' s') :
      Course c pos named (as ++ bs) held s held'' s'

variable {c : Context} {pos : Int} {named : Binding → Prop} {as : List (Access × Session)}
  {ids held held' held'' : List Nat} {s m s' : Session} {p : Place} {span : Span}
  {scrutinee : Option Place}

namespace Course

lemma subset (h : c.Course pos named as held s held' s') : held ⊆ held' := by
  induction h with
  | access | carry => exact subset_append_left _ _
  | append _ _ ih ih' => exact List.Subset.trans ih ih'
  | refl | begin | mark | attach | dangle => exact .refl _

lemma trans (h : c.Course pos named as held s held' m)
    (h' : c.Course pos named [] held' m held'' s') : c.Course pos named as held s held'' s' := by
  simpa using h.append h'

lemma foldl {β : Type} {g : Session → β → Session} {l : List β}
    (h : ∀ b ∈ l, ∀ s, c.Course pos named [] held s held (g s b)) (s : Session) :
    c.Course pos named [] held s held (l.foldl g s) := by
  induction l generalizing s with
  | nil => exact .refl held s
  | cons b l ih =>
    exact (h b mem_cons_self s).trans (ih (fun b' hb' => h b' (mem_cons_of_mem _ hb')) _)

end Course

/-! ### Requests -/

lemma demanded_lend {q : Place} {demand : Demand} {kind : LoanKind}
    (h : c.demanded q demand = .ok (.lend p kind)) : q = p := by
  rcases demanded_cases h with h | ⟨kind', h⟩ | ⟨h, -⟩
  · cases h
  · exact (Access.lend.inj h).1.symm
  · cases h

section Requests

variable {meaning : String → Option Binding} {names : List String}
  (hnamed : ∀ name ∈ names, ∀ b, meaning name = some b → named b) {k : List Nat × Session}

include hnamed

lemma course_perform {r : Request} (hr : r.Based meaning names) (h : c.perform pos s r = .ok k)
    (held : List Nat) :
    ∃ a held', c.asked r = .ok a ∧ c.Course pos named [(a, s)] held s held' k.2 ∧ k.1 ⊆ held' := by
  cases r with
  | fail fault => cases h
  | place demand p span kept =>
    obtain ⟨name, hname, hbase⟩ := hr
    have hp := hnamed name hname p.base hbase
    rw [perform_place] at h
    obtain ⟨k', hdemand, rfl⟩ := map_eq_ok.mp h
    obtain ⟨a, ha, hk'⟩ := bind_eq_ok.mp hdemand
    have haccess : c.Course pos named [(a, s)] held s (held ++ k'.1) k'.2 := by
      refine .access held hk' ?_
      rintro q kind rfl
      rwa [← demanded_lend ha]
    -- What a request keeps is what its access lends or what its place carries: both are at hand.
    refine ⟨a, _, ha, haccess.trans (.carry _ _ hp), ?_⟩
    cases kept with
    | false => exact nil_subset _
    | true =>
      dsimp only
      rw [if_pos rfl]
      split
      · exact subset_append_right _ _
      · exact List.Subset.trans (subset_append_right _ _) (subset_append_left _ _)

/-- Requests take their course one after another, and ask for nothing else. -/
lemma course_performAll {rs : List Request} (hrs : ∀ r ∈ rs, r.Based meaning names)
    (h : c.performAll pos s rs = .ok k) (held : List Nat) :
    ∃ as held', c.Course pos named as held s held' k.2 ∧ k.1 ⊆ held' ∧
      ∀ a u, c.Asks pos rs s a u ↔ (a, u) ∈ as := by
  induction rs generalizing s k held with
  | nil =>
    cases h
    exact ⟨[], held, .refl held s, nil_subset _, fun a u => by simp [Asks]⟩
  | cons r rest ih =>
    rw [performAll_cons] at h
    obtain ⟨k₁, h₁, h⟩ := bind_eq_ok.mp h
    obtain ⟨k₂, h₂, rfl⟩ := map_eq_ok.mp h
    obtain ⟨a, held₁, ha, hfirst, hsub⟩ := course_perform hnamed (hrs r mem_cons_self) h₁ held
    obtain ⟨as, held₂, hrest, hsub', hasks⟩ :=
      ih (fun r hr => hrs r (mem_cons_of_mem _ hr)) h₂ held₁
    refine ⟨(a, s) :: as, held₂, hfirst.append hrest,
      append_subset.mpr ⟨List.Subset.trans hsub hrest.subset, hsub'⟩, fun b u => ?_⟩
    simp only [Asks, ha, h₁, Except.ok.injEq, mem_cons, Prod.mk.injEq, exists_eq_left', hasks]
    rw [eq_comm]

end Requests

/-! ### Rules -/

lemma course_introduce {state : PlaceState} (hst : state ≠ .moved) (hids : ids ⊆ held)
    (s : Session) :
    c.Course pos named [] held s held (c.introduce pos state ids s) :=
  .foldl (fun _ hb s => .trans (.mark held s hb hst) (.attach _ hids (.inl hb))) s

lemma course_store (named : Binding → Prop) (hp : named p.base) (hids : ids ⊆ held)
    (h : c.store pos span p ids s = .ok s') :
    ∃ a held', c.storage p = .ok a ∧ c.Course pos named [(a, s)] held s held' s' := by
  obtain ⟨a, ha, h⟩ := bind_eq_ok.mp h
  obtain ⟨k, hk, h⟩ := bind_eq_ok.mp h
  cases h
  have haccess : c.Course pos named [(a, s)] held s (held ++ k.1) k.2 := by
    refine .access held hk fun q kind hlend => ?_
    rcases storage_cases ha with ⟨r, rfl⟩ | rfl
    · cases hlend
    · cases hlend
  refine ⟨a, held ++ k.1, ha, ?_⟩
  split
  · exact haccess.trans (.attach _ (List.Subset.trans hids haccess.subset) (.inr hp))
  · exact haccess

lemma Dangled.course (h : c.Dangled pos true s s') : c.Course pos named [] held s held s' := by
  induction h with
  | refl s => exact .refl held s
  | report l span _ ih => exact (Course.dangle held _ l span).trans ih

/-! ### Headers of arms -/

lemma course_takeApart (named : Binding → Prop) {takes : Bool}
    (h : c.takeApart pos span scrutinee takes s = .ok s') (held : List Nat) :
    ∃ as held', c.Course pos named as held s held' s' ∧ ∀ a u, (a, u) ∈ as ↔
      ∃ p, scrutinee = some p ∧ takes = true ∧ c.consumption p = .ok a ∧ u = s := by
  unfold takeApart at h
  split at h
  · rename_i p
    obtain ⟨a, ha, h⟩ := bind_eq_ok.mp h
    obtain ⟨k, hk, h⟩ := bind_eq_ok.mp h
    cases h
    refine ⟨[(a, s)], _, .access held hk fun q kind hlend => ?_, fun b u => ?_⟩
    · rcases consumption_cases ha with rfl | ⟨rfl, -⟩
      · cases hlend
      · cases hlend
    · simp only [mem_singleton, Prod.mk.injEq, Option.some.injEq, exists_eq_left',
        true_and, ha,
        Except.ok.injEq]
      rw [eq_comm]
  · rename_i hno
    cases h
    refine ⟨[], held, .refl held s, fun b u => ⟨(fun hm => nomatch hm), ?_⟩⟩
    rintro ⟨p, rfl, rfl, -⟩
    exact (hno p rfl rfl).elim

/-- Binders get loans that are lent to them or carried by the scrutinee. -/
lemma course_shareLoans {byRef : Bool} {binders : List (Binding × Ty)}
    (hbinders : ∀ b ∈ binders, b.1 ∈ c.tree.declaredBy pos) (hp : ∀ p ∈ scrutinee, named p.base)
    (h : c.shareLoans pos span byRef binders scrutinee s = .ok s') (held : List Nat) :
    ∃ as held', c.Course pos named as held s held' s' ∧ ∀ a u, (a, u) ∈ as ↔ ∃ p,
      scrutinee = some p ∧
      (byRef && binders.any (·.2.isLocalRef)) = true ∧ a = .lend p .shared ∧ u = s := by
  have hattach : ∀ (k : List Nat × Session), c.Course pos named [] (held ++ k.1) k.2 (held ++ k.1)
      (((binders.filter (·.2.isLocalRef)).map (·.1)).foldl
        (fun s b => s.attach c.tree k.1 b pos) k.2) := by
    refine fun k => .foldl (fun b hb s => .attach s (subset_append_right _ _) (.inl ?_)) k.2
    obtain ⟨x, hx, rfl⟩ := mem_map.mp hb
    exact hbinders x (mem_filter.mp hx).1
  cases scrutinee with
  | none =>
    cases h
    exact ⟨[], held, .refl held s, fun a u => by simp⟩
  | some p =>
    have hnamed : named p.base := hp p rfl
    have hlend : ∀ q kind, Access.lend p .shared = .lend q kind → named q.base := by
      rintro q kind heq
      rwa [← (Access.lend.inj heq).1]
    cases hcond : byRef && binders.any (·.2.isLocalRef) with
    | true =>
      refine ⟨[(.lend p .shared, s)], ?_⟩
      cases hc : c.tracksLoans with
      | true =>
        rw [shareLoans_eq hc pos span byRef binders p hcond] at h
        obtain ⟨k, hk, rfl⟩ := map_eq_ok.mp h
        exact ⟨_, (Course.access held hk hlend).trans (hattach k), fun a u => by simp⟩
      | false =>
        -- Where loans are not tracked, lending is an access that does nothing.
        have hlent : c.access pos span s (.lend p .shared) = .ok ([], s) := by
          rw [access, lend, hc, Bool.not_false, if_pos rfl]
        rw [shareLoans, hc] at h
        cases h
        exact ⟨_, .access held hlent hlend, fun a u => by simp⟩
    | false =>
      refine ⟨[], ?_⟩
      unfold shareLoans at h
      dsimp only at h
      split at h
      · cases h
        exact ⟨held, .refl held s, fun a u => by simp⟩
      · -- Binders that are references by their own types get what the scrutinee carries.
        rename_i hrefs
        rw [isEmpty_refs] at hrefs
        simp only [Bool.or_eq_true, not_or, Bool.not_eq_true', Bool.not_eq_false] at hrefs
        rw [hrefs.2, Bool.and_true] at hcond
        rw [hcond] at h
        cases h
        exact ⟨_, (Course.carry held s hnamed).trans (hattach (c.carried p pos s, s)),
          fun a u => by simp⟩

lemma course_fillBinders (held : List Nat) (types : List Ty) (s : Session) :
    c.Course pos named [] held s held (fillBinders ((c.tree.declaredBy pos).zip types) s) :=
  .foldl (fun b hb s => .mark held s (of_mem_zip hb).1 (by decide)) s

lemma course_bindArm (named : Binding → Prop) {sel : Selection} (hp : ∀ p ∈ scrutinee, named p.base)
    {arm : Arm} (h : c.bindArm sel scrutinee pos arm s = .ok s') (held : List Nat) :
    ∃ as held', c.Course pos named as held s held' s' ∧
      ∀ a u, c.ArmTries sel scrutinee pos arm s a u ↔ (a, u) ∈ as := by
  obtain ⟨types, htypes, h⟩ := bind_eq_ok.mp h
  obtain ⟨takes, htakes, h⟩ := bind_eq_ok.mp h
  obtain ⟨m, hm, h⟩ := bind_eq_ok.mp h
  have hbinders : ∀ b ∈ (c.tree.declaredBy pos).zip types, b.1 ∈ c.tree.declaredBy pos :=
    fun b hb => (of_mem_zip hb).1
  have hfill : c.Course pos named [] held s held _ := course_fillBinders held types s
  obtain ⟨as, held₁, hfirst, hmem⟩ := course_takeApart named hm held
  obtain ⟨bs, held₂, hsecond, hmem'⟩ := course_shareLoans hbinders hp h held₁
  refine ⟨as ++ bs, held₂, (Course.append hfill hfirst).append hsecond, fun a u => ?_⟩
  rw [mem_append, hmem, hmem', Bool.and_eq_true]
  constructor
  · rintro ⟨p, types', takes', rfl, ht, ht', hcase⟩
    obtain rfl := ok_inj htypes ht
    obtain rfl := ok_inj htakes ht'
    rcases hcase with ⟨rfl, ha, rfl⟩ | ⟨hby, hany, rfl, hu⟩
    · exact .inl ⟨p, rfl, rfl, ha, rfl⟩
    · exact .inr ⟨p, rfl, ⟨hby, hany⟩, rfl, ok_inj hu hm⟩
  · rintro (⟨p, rfl, rfl, ha, rfl⟩ | ⟨p, rfl, ⟨hby, hany⟩, rfl, rfl⟩)
    · exact ⟨p, types, _, rfl, htypes, htakes, .inl ⟨rfl, ha, rfl⟩⟩
    · exact ⟨p, types, takes, rfl, htypes, htakes, .inr ⟨hby, hany, rfl, hm⟩⟩

/-! ### Events -/

variable {e : Event}

/-- Whether an event takes its course from one session to another. A return leaves the function at
the end. -/
def Runs (c : Context) (e : Event) (s s' : Session) : Prop :=
  ∃ as held m, c.Course e.pos (fun b => c.Names e (.ofBinding b)) as [] s held m ∧
    (∀ a u, c.NodeTries e.pos s a u e.node ↔ (a, u) ∈ as) ∧
    s' = if e.isReturn then c.leaveFunction e.pos m else m

lemma runs_same (hret : e.isReturn = false) (hno : ∀ a u, ¬c.NodeTries e.pos s a u e.node) :
    c.Runs e s s := by
  refine ⟨[], [], s, .refl [] s, fun a u => ⟨fun h => (hno a u h).elim, fun h => nomatch h⟩, ?_⟩
  rw [hret]
  rfl

lemma course_requests {rs : List Request} {loc : Span} {x : Expr} (hx : x ∈ e.node.expressions)
    (hrs : ∀ r ∈ rs, r.Based (c.meaning e.pos) x.vars) {k : List Nat × Session}
    (h : c.performAll e.pos (s.begin loc) rs = .ok k) :
    ∃ as held, c.Course e.pos (fun b => c.Names e (.ofBinding b)) as [] s held k.2 ∧ k.1 ⊆ held ∧
      ∀ a u, c.Asks e.pos rs (s.begin loc) a u ↔ (a, u) ∈ as := by
  have hnamed : ∀ name ∈ x.vars, ∀ b, c.meaning e.pos name = some b → c.Names e (.ofBinding b) :=
    fun name hname b hb => .inl ⟨name, mem_flatMap.mpr ⟨x, hx, hname⟩, hb⟩
  obtain ⟨as, held, hcourse, hsub, hasks⟩ := course_performAll hnamed hrs h []
  exact ⟨as, held, (Course.begin [] s loc).append hcourse, hsub, hasks⟩

/-- Every statement takes its course. -/
lemma runs_stmt (hk : e.kind = .step) {stmt : Stmt} (hn : e.node = .stmt stmt)
    (h : c.executeNode e.pos s (.stmt stmt) = .ok s') : c.Runs e s s' := by
  have hexprs : ∀ x ∈ stmt.expressions, x ∈ e.node.expressions := fun x hx => by rwa [hn]
  rw [Runs, Event.isReturn, hk, hn]
  cases stmt with
  | block b =>
    cases h
    exact ⟨[], [], s, .refl [] s, fun a u => by simp [NodeTries], rfl⟩
  | foreign kind => cases h
  | declare name type value mutable loc =>
    obtain ⟨k, hk, h⟩ := bind_eq_ok.mp h
    cases h
    obtain ⟨as, held, hcourse, hsub, hasks⟩ :=
      course_requests (hexprs value mem_cons_self) (Expr.based_requests true value) hk
    refine ⟨as, held, _, hcourse.trans (course_introduce ?_ hsub k.2), hasks, rfl⟩
    split
    · decide
    · decide
  | assign target value loc =>
    obtain ⟨k, hk, h⟩ := bind_eq_ok.mp h
    obtain ⟨as, held, hcourse, hsub, hasks⟩ :=
      course_requests (hexprs value (by simp [Stmt.expressions]))
        (Expr.based_requests true value) hk
    cases hp : target.place? (c.meaning e.pos) with
    | none =>
      rw [hp] at h
      cases h
    | some p =>
      rw [hp] at h
      obtain ⟨name, hname, hbase⟩ := Expr.exists_name_of_place? hp
      have htarget : target ∈ e.node.expressions := hexprs target (by simp [Stmt.expressions])
      have hnamed : c.Names e (.ofBinding p.base) :=
        .inl ⟨name, mem_flatMap.mpr ⟨target, htarget, hname⟩, hbase⟩
      obtain ⟨b, held', hstorage, hstore⟩ :=
        course_store (fun b => c.Names e (.ofBinding b)) hnamed hsub h
      refine ⟨as ++ [(b, k.2)], held', s', hcourse.append hstore, fun a u => ?_, rfl⟩
      have hk' : c.evaluate e.pos loc value (s.begin loc) = .ok k := hk
      simp only [NodeTries, hasks, hk', hp, hstorage, Except.ok.injEq, Option.some.injEq,
        exists_eq_left', mem_append, mem_singleton, Prod.mk.injEq]
      rw [eq_comm (a := b)]
  | evaluate value loc =>
    obtain ⟨k, hk, rfl⟩ := map_eq_ok.mp h
    obtain ⟨as, held, hcourse, -, hasks⟩ :=
      course_requests (hexprs value mem_cons_self) (Expr.based_requests true value) hk
    exact ⟨as, held, k.2, hcourse, hasks, rfl⟩
  | ret value loc =>
    have hgive : c.giveBack e.pos value loc (s.begin loc) = .ok s' := h
    rw [giveBack_eq] at hgive
    obtain ⟨m, hm, rfl⟩ := map_eq_ok.mp hgive
    obtain ⟨k, hk, hescape⟩ := bind_eq_ok.mp hm
    obtain ⟨as, held, hcourse, -, hasks⟩ :=
      course_requests (hexprs value mem_cons_self) (Expr.based_requests true value) hk
    exact ⟨as, held, m, hcourse.trans (dangled_escape hescape).course, hasks, rfl⟩
  | branch test t e' loc | loop test body loc =>
    obtain ⟨k, hk, h⟩ := bind_eq_ok.mp h
    cases h
    obtain ⟨as, held, hcourse, -, hasks⟩ :=
      course_requests (hexprs test mem_cons_self) (Expr.based_readRequests test) hk
    exact ⟨as, held, k.2, hcourse, hasks, rfl⟩
  | select scrutinee arms type loc =>
    have hscrut : Prod.snd <$> c.scrutinize e.pos loc scrutinee (s.begin loc) = .ok s' := h
    simp only [NodeTries]
    cases hp : scrutinee.place? (c.meaning e.pos) with
    | some p =>
      rw [scrutinize_place hp] at hscrut
      obtain ⟨k, hk, rfl⟩ := map_eq_ok.mp hscrut
      refine ⟨[(.read p, s.begin loc)], _, k.2,
        (Course.begin [] s loc).append (.access [] hk fun q kind hlend => ?_), fun a u => by
          simp, rfl⟩
      cases hlend
    | none =>
      rw [scrutinize_value hp] at hscrut
      obtain ⟨k, hk, rfl⟩ := map_eq_ok.mp hscrut
      obtain ⟨as, held, hcourse, -, hasks⟩ :=
        course_requests (hexprs scrutinee mem_cons_self)
          (Expr.based_requests true scrutinee) hk
      exact ⟨as, held, k.2, hcourse, hasks, rfl⟩

/-- A statement or the header of an arm takes its course. -/
theorem runs_execute (hk : e.kind = .step) (h : c.execute e s = .ok s') : c.Runs e s s' := by
  rw [execute, hk] at h
  cases hn : e.node with
  | stmt stmt =>
    rw [hn] at h
    exact runs_stmt hk hn h
  | function | param p =>
    rw [hn] at h
    cases h
    exact runs_same (by rw [Event.isReturn, hk, hn]) fun a u => by simp [NodeTries, hn]
  | arm arm sel =>
    rw [hn] at h
    have hret : e.isReturn = false := by rw [Event.isReturn, hk, hn]
    cases sel with
    | none =>
      cases h
      exact runs_same hret fun a u => by simp [NodeTries, hn]
    | some sel =>
      have hnamed : ∀ p ∈ c.touchable sel s, c.Names e (.ofBinding p.base) := by
        intro p hp
        obtain ⟨hplace, -⟩ := Option.filter_eq_some_iff.mp hp
        obtain ⟨name, hname, hbase⟩ := Expr.exists_name_of_place? hplace
        exact .inr ⟨arm, sel, hn, name, hname, hbase⟩
      obtain ⟨as, held, hcourse, htries⟩ :=
        course_bindArm (fun b => c.Names e (.ofBinding b)) hnamed h []
      refine ⟨as, held, s', hcourse, ?_, by rw [hret]; rfl⟩
      rw [hn]
      exact htries

end Context

end Ownership
