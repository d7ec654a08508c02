import Ownership.Proofs.Control.Layout
import Ownership.Proofs.Moves.Soundness

/-!
# What a walk visits

A walk visits events in an order that depends on the body only: the two ways of a fork one after
the other, and a loop twice. What comes after the last visit of an event stands behind it in the
text. In a body without loops this is so for every visit.
-/

namespace Ownership

open Fault List

/-- What is seen after a step, if the step completes. -/
def Fault.seen {α β : Type} (x : Except Fault α) (f : α → List β) : List β :=
  match x with
  | .ok a => f a
  | .error _ => []

@[simp] lemma Fault.seen_ok {α β : Type} (a : α) (f : α → List β) : seen (.ok a) f = f a := rfl

namespace Skeleton

def revisits (again : Session → Except Fault Session) (see : Session → List (Event × Session)) :
    Nat → Flow → Session → List (Event × Session)
  | 0, _, _ => []
  | n + 1, joined, s =>
    let j := { s with flow := joined, replay := s.replay + 1 }
    see j ++ seen (again j) fun s' =>
      revisits again see n (joined.merge s'.flow) { s' with replay := s.replay }

/-- The events that a walk visits, in its order and each with the session that it meets. -/
def visits (c : Context) : Skeleton → Session → List (Event × Session)
  | done, _ => []
  | event e, s => [(e, s)]
  | scope start stop node kind body, s =>
    (.enter start node kind, s) :: seen (c.execute (.enter start node kind) s) fun m =>
      body.visits c m ++ seen (body.walk c m) fun m' => [(.exit start stop node, m')]
  | noted _ k, s => k.visits c s
  | seq k l, s =>
    k.visits c s ++ seen (k.walk c s) fun m => if m.flow.returned then [] else l.visits c m
  | fork k l, s =>
    k.visits c s ++ seen (k.walk c s) fun s₁ => l.visits c (s₁.withFlow s.flow)
  | loop pos test body loc inner, s =>
    (.test pos test body loc, s) :: seen (c.execute (.test pos test body loc) s) fun m =>
      inner.visits c m ++ seen (inner.walk c m) fun s₁ =>
        revisits (fun s => c.execute (.test pos test body loc) s >>= inner.walk c)
          (fun s => (.test pos test body loc, s) ::
            seen (c.execute (.test pos test body loc) s) (inner.visits c))
          c.replays (m.flow.merge s₁.flow) s₁

variable {c : Context} {s s' u : Session} {e : Event} {es : List Event} {k : Skeleton} {lo hi : Int}

lemma visits_loop (hr : c.replays = 1) {pos : Int} {test : Expr} {body : Block} {loc : Span}
    {inner : Skeleton} {m s₁ m' s₂ : Session} (hm : c.execute (.test pos test body loc) s = .ok m)
    (h₁ : inner.walk c m = .ok s₁)
    (hm' : c.execute (.test pos test body loc)
      { s₁ with flow := m.flow.merge s₁.flow, replay := s₁.replay + 1 } = .ok m')
    (h₂ : inner.walk c m' = .ok s₂) :
    (loop pos test body loc inner).visits c s =
      (.test pos test body loc, s) :: (inner.visits c m ++
        (.test pos test body loc,
          { s₁ with flow := m.flow.merge s₁.flow, replay := s₁.replay + 1 }) ::
            inner.visits c m') := by
  have hagain : ((Except.ok m' : Except Fault Session) >>= inner.walk c) = .ok s₂ := h₂
  simp only [visits, hm, h₁, hr, seen_ok, revisits, hm', hagain, append_nil]

/-! ### The order of visits -/

/-- Whether every path through a skeleton that does not loop forever returns. -/
def returns : Skeleton → Bool
  | done | loop .. => false
  | event e => e.isReturn
  | scope _ _ _ _ k | noted _ k => k.returns
  | seq k l => k.returns || l.returns
  | fork k l => k.returns && l.returns

/-- The events that a walk visits, in its order. -/
def visited : Skeleton → List Event
  | done => []
  | event e => [e]
  | scope start stop node kind body =>
    .enter start node kind :: (body.visited ++ [.exit start stop node])
  | noted _ k => k.visited
  | seq k l => k.visited ++ if k.returns then [] else l.visited
  | fork k l => k.visited ++ l.visited
  | loop pos test body loc inner =>
    .test pos test body loc :: (inner.visited ++ .test pos test body loc :: inner.visited)

/-- What a walk visits, and whether it returns, is given by the body. -/
lemma walk_returned_and_visits (hc : c.tracksLoans = true) (hr : c.replays = 1) (k : Skeleton)
    (h : k.walk c s = .ok s') (hs : s.flow.returned = false) :
    s'.flow.returned = k.returns ∧ (k.visits c s).map Prod.fst = k.visited := by
  induction k generalizing s s' with
  | done =>
    cases h
    exact ⟨hs, rfl⟩
  | event e =>
    rw [(Context.performs hc e).returned h, hs]
    exact ⟨rfl, rfl⟩
  | scope start stop node kind body ih =>
    obtain ⟨m, hm, h⟩ := bind_eq_ok.mp h
    obtain ⟨m', hm', h⟩ := bind_eq_ok.mp h
    obtain ⟨hret, hbody⟩ := ih hm' (Context.returned_execute rfl hm hs)
    rw [(Context.performs hc _).returned h, hret]
    exact ⟨Bool.or_false _, by simp [visits, visited, hm, hm', hbody]⟩
  | noted pos k ih =>
    obtain ⟨m, hm, h⟩ := bind_eq_ok.mp h
    cases h
    have hk := ih hm hs
    exact hk
  | seq k l ihk ihl =>
    obtain ⟨m, hm, h⟩ := bind_eq_ok.mp h
    obtain ⟨hret, hfirst⟩ := ihk hm hs
    rw [returns, visits, visited, hm, seen_ok, map_append, hfirst, ← hret]
    cases hm' : m.flow.returned with
    | true =>
      rw [hm', if_pos rfl] at h
      rw [← Except.ok.inj h]
      exact ⟨hm', rfl⟩
    | false =>
      rw [hm', if_neg Bool.false_ne_true] at h
      rw [if_neg Bool.false_ne_true, if_neg Bool.false_ne_true, (ihl h hm').2]
      exact ⟨(ihl h hm').1, rfl⟩
  | fork k l ihk ihl =>
    obtain ⟨s₁, h₁, h⟩ := bind_eq_ok.mp h
    obtain ⟨s₂, h₂, h⟩ := bind_eq_ok.mp h
    cases h
    obtain ⟨hret₁, hfirst⟩ := ihk h₁ hs
    obtain ⟨hret₂, hsecond⟩ := ihl h₂ hs
    rw [returns, visits, visited, h₁, seen_ok, map_append, hfirst, hsecond, ← hret₁,
      ← hret₂]
    exact ⟨Flow.returned_merge _ _, rfl⟩
  | loop pos test body loc inner ih =>
    obtain ⟨m, s₁, m', s₂, hm, h₁, hm', h₂, rfl⟩ := walk_loop hr h
    have hmret : m.flow.returned = false := Context.returned_execute rfl hm hs
    have hjret : (m.flow.merge s₁.flow).returned = false := by
      rw [Flow.returned_merge, hmret, Bool.false_and]
    refine ⟨(Flow.returned_merge _ _).trans (by rw [hjret]; rfl), ?_⟩
    rw [visits_loop hr hm h₁ hm' h₂]
    simp [visited, (ih h₁ hmret).2, (ih h₂ (Context.returned_execute rfl hm' hjret)).2]

lemma walk_returned (hc : c.tracksLoans = true) (hr : c.replays = 1) (k : Skeleton)
    (h : k.walk c s = .ok s') (hs : s.flow.returned = false) : s'.flow.returned = k.returns :=
  (walk_returned_and_visits hc hr k h hs).1

/-- A walk that completes visits its events in the order that the body gives. -/
lemma map_fst_visits (hc : c.tracksLoans = true) (hr : c.replays = 1) (k : Skeleton)
    (h : k.walk c s = .ok s') (hs : s.flow.returned = false) :
    (k.visits c s).map Prod.fst = k.visited :=
  (walk_returned_and_visits hc hr k h hs).2

/-! ### Last visits -/

lemma mem_events_of_visited (k : Skeleton) (he : e ∈ k.visited) : e ∈ k.events := by
  induction k with
  | done => exact he
  | event e' => exact he
  | scope start stop node kind body ih =>
    simp only [visited, events, mem_cons, mem_append] at he ⊢
    exact he.imp_right (Or.imp_left ih)
  | noted pos k ih => exact ih he
  | seq k l ihk ihl =>
    rw [visited, mem_append] at he
    refine mem_append.mpr (he.imp ihk fun he => ihl ?_)
    split at he
    · cases he
    · exact he
  | fork k l ihk ihl => exact mem_append.mpr ((mem_append.mp he).imp ihk ihl)
  | loop pos test body loc inner ih =>
    simp only [visited, mem_cons, mem_append] at he
    rcases he with rfl | he | rfl | he
    · exact mem_cons_self
    · exact mem_cons_of_mem _ (ih he)
    · exact mem_cons_self
    · exact mem_cons_of_mem _ (ih he)

lemma visited_sublist_events (k : Skeleton)
    (h : ∀ pos test body loc, Event.test pos test body loc ∉ k.events) :
    k.visited.Sublist k.events := by
  induction k with
  | done => exact .refl _
  | event e => exact .refl _
  | scope start stop node kind body ih =>
    refine ((ih fun pos test b loc he => h pos test b loc ?_).append (.refl _)).cons_cons _
    exact mem_cons_of_mem _ (mem_append_left _ he)
  | noted pos k ih => exact ih h
  | seq k l ihk ihl =>
    refine (ihk fun pos test b loc he => h pos test b loc ?_).append ?_
    · exact mem_append_left _ he
    · split
      · exact nil_sublist _
      · exact ihl fun pos test b loc he => h pos test b loc (mem_append_right _ he)
  | fork k l ihk ihl =>
    apply List.Sublist.append
    · exact ihk fun pos test b loc he => h pos test b loc (mem_append_left _ he)
    · exact ihl fun pos test b loc he => h pos test b loc (mem_append_right _ he)
  | loop pos test body loc inner ih => exact (h pos test body loc mem_cons_self).elim

/-- Whether an event is followed, the last time, by events that do not stand before it. -/
def Settles (es : List Event) (e : Event) : Prop :=
  ∃ before after, es = before ++ e :: after ∧ ∀ e' ∈ after, e.pos ≤ e'.pos

lemma Settles.append_left (h : Settles es e) (es' : List Event) : Settles (es' ++ es) e := by
  obtain ⟨before, after, rfl, hafter⟩ := h
  exact ⟨es' ++ before, after, (append_assoc ..).symm, hafter⟩

lemma Settles.append_right {es' : List Event} (h : Settles es e)
    (hes : ∀ e' ∈ es', e.pos ≤ e'.pos) :
    Settles (es ++ es') e := by
  obtain ⟨before, after, rfl, hafter⟩ := h
  refine ⟨before, after ++ es', by simp, fun e' he' => ?_⟩
  exact (mem_append.mp he').elim (hafter e') (hes e')

/-- Every event that is visited has a last visit, and what comes then does not stand before it. -/
lemma settles_visited (h : k.Spans lo hi) (he : e ∈ k.visited) : Settles k.visited e := by
  have hpos : ∀ {k : Skeleton} {lo hi : Int}, k.Spans lo hi → ∀ e ∈ k.visited,
      lo ≤ e.pos ∧ e.pos < hi := fun hk e he => hk.mem_events (mem_events_of_visited _ he)
  induction k generalizing lo hi with
  | done => cases he
  | event e' =>
    rw [mem_singleton.mp he]
    exact ⟨[], [], rfl, fun e' he' => nomatch he'⟩
  | scope start stop node kind body ih =>
    obtain ⟨rfl, rfl, hb⟩ := h
    have hle := hb.le
    rcases mem_cons.mp he with rfl | he
    · refine ⟨[], _, rfl, fun e' he' => ?_⟩
      change start ≤ e'.pos
      rcases mem_append.mp he' with he' | he'
      · have := hpos hb e' he'
        omega
      · rw [mem_singleton.mp he']
        change start ≤ stop
        omega
    · refine .append_left ?_ [Event.enter start node kind]
      rcases mem_append.mp he with he | he
      · refine (ih hb he).append_right fun e' he' => ?_
        rw [mem_singleton.mp he']
        exact (hpos hb e he).2.le
      · rw [mem_singleton.mp he]
        exact ⟨body.visited, [], rfl, fun e' he' => nomatch he'⟩
  | noted pos k ih => exact ih h he
  | seq k l ihk ihl =>
    obtain ⟨mid, hk, hl⟩ := h
    rcases mem_append.mp he with he | he
    · refine (ihk hk he).append_right fun e' he' => ?_
      split at he'
      · cases he'
      · exact ((hpos hk e he).2.trans_le (hpos hl e' he').1).le
    · split at he
      · cases he
      · rename_i hret
        rw [visited, if_neg hret]
        exact (ihl hl he).append_left _
  | fork k l ihk ihl =>
    obtain ⟨mid, hk, hl⟩ := h
    rcases mem_append.mp he with he | he
    · refine (ihk hk he).append_right fun e' he' => ?_
      exact ((hpos hk e he).2.trans_le (hpos hl e' he').1).le
    · exact (ihl hl he).append_left _
  | loop pos test body loc inner ih =>
    obtain ⟨rfl, -, hin⟩ := h
    -- Only the second round matters.
    refine .append_left ?_ (Event.test pos test body loc :: inner.visited)
    have hround : e = .test pos test body loc ∨ e ∈ inner.visited := by
      simp only [visited, mem_cons, mem_append] at he
      tauto
    rcases hround with rfl | he
    · refine ⟨[], _, rfl, fun e' he' => ?_⟩
      have := hpos hin e' he'
      change pos ≤ e'.pos
      omega
    · exact (ih hin he).append_left [Event.test pos test body loc]

/-- What is visited after the last visit of an event does not stand before it. -/
lemma exists_last_visit (hc : c.tracksLoans = true) (hr : c.replays = 1) (hspans : k.Spans lo hi)
    (h : k.walk c s = .ok s') (hs : s.flow.returned = false) (hu : (e, u) ∈ k.visits c s) :
    ∃ before u' after, k.visits c s = before ++ (e, u') :: after ∧
      ∀ w ∈ after, e.pos ≤ w.1.pos := by
  have hmap := map_fst_visits hc hr k h hs
  have he : e ∈ k.visited := hmap ▸ mem_map_of_mem hu
  obtain ⟨before, after, heq, hafter⟩ := settles_visited hspans he
  rw [heq] at hmap
  obtain ⟨vs, ws, hvisits, -, hws⟩ := map_eq_append_iff.mp hmap
  obtain ⟨⟨e', u'⟩, ws, rfl, rfl, rfl⟩ := map_eq_cons_iff.mp hws
  exact ⟨vs, u', ws, hvisits, fun w hw => hafter _ (mem_map_of_mem hw)⟩

lemma visits_ordered (hc : c.tracksLoans = true) (hr : c.replays = 1) (hspans : k.Spans lo hi)
    (honce : ∀ pos test body loc, Event.test pos test body loc ∉ k.events) (h : k.walk c s = .ok s')
    (hs : s.flow.returned = false) {before after : List (Event × Session)}
    (hu : k.visits c s = before ++ (e, u) :: after) : ∀ w ∈ after, e.pos ≤ w.1.pos := by
  have hsorted := hspans.pairwise_events.sublist (visited_sublist_events k honce)
  rw [← map_fst_visits hc hr k h hs, hu, map_append, map_cons] at hsorted
  have htail := pairwise_cons.mp (pairwise_append.mp hsorted).2.1
  exact fun w hw => (htail.1 _ (mem_map_of_mem hw)).le

end Skeleton

/-- Whether two sessions have the same loans and findings, the same loans reported as dangling and,
where each part is walked once, are in the same round. -/
structure Session.Same (once : Prop) (s s' : Session) : Prop where
  loans : s'.loans = s.loans
  findings : s'.findings = s.findings
  dangling : s'.dangling = s.dangling
  replay : once → s'.replay = s.replay

lemma Session.Same.refl (once : Prop) (s : Session) : s.Same once s := ⟨rfl, rfl, rfl, fun _ => rfl⟩

lemma Session.Same.trans {once : Prop} {s m s' : Session} (h : s.Same once m)
    (h' : m.Same once s') : s.Same once s' :=
  ⟨h'.loans.trans h.loans, h'.findings.trans h.findings, h'.dangling.trans h.dangling,
    fun ho => (h'.replay ho).trans (h.replay ho)⟩

/-- Whether visits lead from one session to another: between the events nothing changes that loans
depend on. -/
def Context.Trail (c : Context) (once : Prop) : List (Event × Session) → Session → Session → Prop
  | [], s, s' => s.Same once s'
  | (e, u) :: vs, s, s' => s.Same once u ∧ ∃ m, c.execute e u = .ok m ∧ c.Trail once vs m s'

namespace Context

variable {c : Context} {once : Prop} {s m s' : Session} {vs ws : List (Event × Session)}

lemma Trail.of_execute {e : Event} (h : c.execute e s = .ok s') : c.Trail once [(e, s)] s s' :=
  ⟨.refl once s, s', h, .refl once s'⟩

lemma Trail.after_same (h : c.Trail once vs m s') (hs : s.Same once m) : c.Trail once vs s s' := by
  cases vs with
  | nil => exact hs.trans h
  | cons v vs => exact ⟨hs.trans h.1, h.2⟩

lemma Trail.append (h : c.Trail once vs s m) (h' : c.Trail once ws m s') :
    c.Trail once (vs ++ ws) s s' := by
  induction vs generalizing s with
  | nil => exact h'.after_same h
  | cons v vs ih =>
    obtain ⟨hsame, m', hm', h⟩ := h
    exact ⟨hsame, m', hm', ih h⟩

lemma Trail.then_same (h : c.Trail once vs s m) (hs : m.Same once s') : c.Trail once vs s s' := by
  have happ : c.Trail once (vs ++ []) s s' := h.append hs
  rwa [append_nil] at happ

lemma Trail.split {e : Event} {u : Session} (h : c.Trail once (vs ++ (e, u) :: ws) s s') :
    c.Trail once vs s u ∧ ∃ m, c.execute e u = .ok m ∧ c.Trail once ws m s' := by
  induction vs generalizing s with
  | nil => exact h
  | cons v vs ih =>
    obtain ⟨hsame, m', hm', h⟩ := h
    obtain ⟨hfirst, hrest⟩ := ih h
    exact ⟨⟨hsame, m', hm', hfirst⟩, hrest⟩

end Context

namespace Skeleton

variable {c : Context}

/-- The visits of a walk lead from its first session to its last. -/
lemma walk_trail (hr : c.replays = 1) (once : Prop) (k : Skeleton)
    (honce : once → ∀ pos test body loc, Event.test pos test body loc ∉ k.events) {s s' : Session}
    (h : k.walk c s = .ok s') : c.Trail once (k.visits c s) s s' := by
  induction k generalizing s s' with
  | done =>
    cases h
    exact .refl once s
  | event e => exact .of_execute h
  | scope start stop node kind body ih =>
    obtain ⟨m, hm, h⟩ := bind_eq_ok.mp h
    obtain ⟨m', hm', h⟩ := bind_eq_ok.mp h
    have hbody := ih (fun ho pos test b loc he => honce ho pos test b loc
      (mem_cons_of_mem _ (mem_append_left _ he))) hm'
    rw [visits, hm, seen_ok, hm', seen_ok]
    exact (Context.Trail.of_execute hm).append (hbody.append (.of_execute h))
  | noted pos k ih =>
    obtain ⟨m, hm, h⟩ := bind_eq_ok.mp h
    cases h
    exact (ih honce hm).then_same ⟨rfl, rfl, rfl, fun _ => rfl⟩
  | seq k l ihk ihl =>
    obtain ⟨m, hm, h⟩ := bind_eq_ok.mp h
    have hfirst := ihk (fun ho pos test b loc he => honce ho pos test b loc
      (mem_append_left _ he)) hm
    rw [visits, hm, seen_ok]
    split at h
    · rename_i hret
      cases h
      rw [if_pos hret, append_nil]
      exact hfirst
    · rename_i hret
      rw [if_neg hret]
      exact hfirst.append (ihl (fun ho pos test b loc he => honce ho pos test b loc
        (mem_append_right _ he)) h)
  | fork k l ihk ihl =>
    obtain ⟨s₁, h₁, h⟩ := bind_eq_ok.mp h
    obtain ⟨s₂, h₂, h⟩ := bind_eq_ok.mp h
    cases h
    have hfirst := ihk (fun ho pos test b loc he => honce ho pos test b loc
      (mem_append_left _ he)) h₁
    have hsecond := ihl (fun ho pos test b loc he => honce ho pos test b loc
      (mem_append_right _ he)) h₂
    rw [visits, h₁, seen_ok]
    refine hfirst.append ((hsecond.after_same ?_).then_same ?_)
    · exact ⟨rfl, rfl, rfl, fun _ => rfl⟩
    · exact ⟨rfl, rfl, rfl, fun _ => rfl⟩
  | loop pos test body loc inner ih =>
    obtain ⟨m, s₁, m', s₂, hm, h₁, hm', h₂, rfl⟩ := walk_loop hr h
    have hnever : ¬once := fun ho => honce ho pos test body loc mem_cons_self
    have hsame : ∀ {t t' : Session}, t'.loans = t.loans → t'.findings = t.findings →
        t'.dangling = t.dangling → t.Same once t' :=
      fun hl hf hd => ⟨hl, hf, hd, fun ho => (hnever ho).elim⟩
    have hinner : ∀ {t t' : Session}, inner.walk c t = .ok t' →
        c.Trail once (inner.visits c t) t t' := fun ht => ih (fun ho => (hnever ho).elim) ht
    rw [visits_loop hr hm h₁ hm' h₂]
    refine (Context.Trail.of_execute hm).append ((hinner h₁).append ?_)
    refine ((Context.Trail.of_execute hm').append ((hinner h₂).then_same ?_)).after_same ?_
    · exact hsame rfl rfl rfl
    · exact hsame rfl rfl rfl

/-- In a walk without refusals every event is admitted where it is visited. -/
lemma Clears.admits_visits (hr : c.replays = 1) {k : Skeleton} (h : Clears c k s s') :
    ∀ v ∈ k.visits c s, c.Admits v.1 v.2.flow := by
  have hfree : ∀ {e : Event} {f : Flow}, c.guards e = [] → c.Admits e f := by
    intro e f he p hp
    rw [he] at hp
    cases hp
  induction h with
  | done => exact fun v hv => nomatch hv
  | event _ hadm _ =>
    intro v hv
    rw [mem_singleton.mp hv]
    exact hadm
  | scope henter _ hwalk _ _ _ ih =>
    rw [visits, henter, seen_ok, hwalk, seen_ok]
    simp only [forall_mem_cons, forall_mem_append]
    exact ⟨hfree rfl, ih, hfree rfl, fun v hv => nomatch hv⟩
  | noted _ ih => exact ih
  | stop hwalk _ hret ih =>
    rw [visits, hwalk, seen_ok, forall_mem_append, if_pos hret]
    exact ⟨ih, fun v hv => nomatch hv⟩
  | seq hwalk _ hret _ ih ih' =>
    rw [visits, hwalk, seen_ok, forall_mem_append, if_neg (by simp [hret])]
    exact ⟨ih, ih'⟩
  | fork hwalk _ _ ih₁ ih₂ =>
    rw [visits, hwalk, seen_ok, forall_mem_append]
    exact ⟨ih₁, ih₂⟩
  | loop hm _ h₁ _ hm' _ h₂ _ ih₁ ih₂ =>
    rw [visits_loop hr hm h₁ hm' h₂]
    simp only [forall_mem_cons, forall_mem_append]
    exact ⟨hfree rfl, ih₁, hfree rfl, ih₂⟩

end Skeleton

end Ownership
