import Ownership.Proofs.Loans.Paths
import Ownership.Proofs.Moves.Arrivals
import Ownership.Proofs.Moves.Drops
import Ownership.Types.Script
import Mathlib.Data.List.Nodup

/-!
# Destruction at the ends of scopes

At the end of a scope a walk destroys what the scope owns, by one state for all the paths that end
the scope there. In a body without loops this is exact: a binding is destroyed exactly if no such
path has left it uninitialized or moved it, and what is said to be missing from it are exactly the
parts that some such path has moved.
-/

namespace Ownership

open List

/-! ### The order of declaration -/

lemma ScopeTree.bindings_in_order {f : Function} {t : ScopeTree} (h : ofFunction f = .ok t) :
    t.bindings.Pairwise fun x y => x.index < y.index ∧ x.declaredAt ≤ y.declaredAt := by
  have hindexed := (exact_of_ofFunction h).indexed
  obtain ⟨-, -, b, -, -, hread, -, rfl⟩ := ofEvents_eq_ok_iff.mp (ofEvents_of_ofFunction h)
  have hall :
      b.Placed f.events ∧ b.tree.bindings.Pairwise fun x y => x.declaredAt ≤ y.declaredAt := by
    apply ScopeBuilder.read_induction (P := fun es b =>
      b.Placed es ∧ b.tree.bindings.Pairwise fun x y => x.declaredAt ≤ y.declaredAt) _ _
      f.numbered_events hread
    · exact ⟨.empty _ rfl rfl, .nil⟩
    · rintro es e m m' hn ⟨hp, hsorted⟩ hr
      refine ⟨hp.read hr hn.of_append_singleton.2, ?_⟩
      obtain ⟨new, hnew, hpos⟩ := ScopeBuilder.Placed.exists_bindings hr
      rw [hnew, pairwise_append]
      refine ⟨hsorted, pairwise_of_forall_mem_list ?_, ?_⟩
      · intro x hx y hy
        rw [(hpos x hx).2.1, (hpos y hy).2.1]
      · intro x hx y hy
        obtain ⟨e', he', -, hx', -⟩ := hp.declared x hx
        rw [← hx', (hpos y hy).2.1]
        exact (hn.of_append_singleton.2 e' he').le
  refine .and ?_ hall.2
  rw [pairwise_iff_getElem]
  intro i j hi hj hij
  rwa [hindexed i _ (getElem?_eq_getElem hi), hindexed j _ (getElem?_eq_getElem hj)]

/-! ### What is left of a binding -/

namespace Flow

variable {f : Flow} {b : Binding} {q : Place} {F : Flow → Prop}

lemma mem_movedParts : q ∈ f.movedParts b ↔ q.base = b ∧ q.path ≠ [] ∧ f.stateOf q = .moved := by
  rw [stateOf_eq_moved_iff, Registry.get?_eq_some_iff, movedParts, mem_map]
  constructor
  · rintro ⟨⟨p, st⟩, hp, rfl⟩
    obtain ⟨hp, hcond⟩ := mem_filter.mp hp
    simp only [Bool.and_eq_true, decide_eq_true_eq, Bool.not_eq_true', isEmpty_eq_false_iff]
      at hcond
    obtain ⟨⟨rfl, hbase⟩, hpath⟩ := hcond
    exact ⟨hbase, hpath, hp⟩
  · rintro ⟨hbase, hpath, hq⟩
    exact ⟨(q, .moved), mem_filter.mpr ⟨hq, by simp [hbase, hpath]⟩, rfl⟩

lemma nodup_movedParts : (f.movedParts b).Nodup :=
  f.states.nodup.sublist (filter_sublist.map _)

lemma dropOf?_eq (f : Flow) (pos : Int) (b : Binding) :
    f.dropOf? pos b = if f.stateOf (.ofBinding b) = .owned then
      some { Drop.ofBinding b pos with
        isPartial := !(f.movedParts b).isEmpty
        movedFields := (f.movedParts b).map (·.relativePath) } else none := by
  unfold dropOf? status
  cases f.stateOf (.ofBinding b) with
  | uninit => rfl
  | moved => rfl
  | owned =>
    cases f.movedParts b with
    | nil => rfl
    | cons q qs => rfl

/-- Whether a state joins others: it is above all of them, and each place is in the state in which
one of them has it. -/
structure Joins (f : Flow) (F : Flow → Prop) : Prop where
  above : ∀ g, F g → ∀ q, g.stateOf q ≤ f.stateOf q
  attained : ∀ q, ∃ g, F g ∧ g.stateOf q = f.stateOf q

lemma Joins.owned_iff (h : f.Joins F) : f.stateOf q = .owned ↔ ∀ g, F g → g.stateOf q = .owned := by
  constructor
  · intro hq g hg
    exact PlaceState.le_owned.mp (hq ▸ h.above g hg q)
  · intro hall
    obtain ⟨g, hg, hq⟩ := h.attained q
    exact hq ▸ hall g hg

lemma Joins.moved_iff (h : f.Joins F) : f.stateOf q = .moved ↔ ∃ g, F g ∧ g.stateOf q = .moved := by
  constructor
  · intro hq
    obtain ⟨g, hg, hgq⟩ := h.attained q
    exact ⟨g, hg, hgq.trans hq⟩
  · rintro ⟨g, hg, hq⟩
    exact PlaceState.moved_le.mp (hq ▸ h.above g hg q)

end Flow

/-! ### The records of a step -/

namespace Session

variable {s m s' : Session} {pos : Int}

/-- Whether all that has been recorded since is of destructions at a position. -/
def Records (pos : Int) (s s' : Session) : Prop :=
  ∃ more, s'.drops = s.drops ++ more ∧ ∀ r ∈ more, r.pos = pos

lemma Records.of_eq (h : s'.drops = s.drops) : s.Records pos s' :=
  ⟨[], by simp [h], fun _ hr => nomatch hr⟩

lemma Records.trans (h : s.Records pos m) (h' : m.Records pos s') : s.Records pos s' := by
  obtain ⟨more, hm, hpos⟩ := h
  obtain ⟨more', hs', hpos'⟩ := h'
  refine ⟨more ++ more', by rw [hs', hm, append_assoc], fun r hr => ?_⟩
  exact (mem_append.mp hr).elim (hpos r) (hpos' r)

lemma Records.foldl {β : Type} {g : Session → β → Session}
    (h : ∀ (s : Session) b, s.Records pos (g s b))
    (l : List β) (s : Session) : s.Records pos (l.foldl g s) := by
  induction l generalizing s with
  | nil => exact .of_eq rfl
  | cons b l ih => exact (h s b).trans (ih _)

lemma records_recordDrop {d : Drop} (hd : d.pos = pos) : s.Records pos (s.recordDrop d) := by
  unfold recordDrop
  split
  · exact .of_eq rfl
  · exact ⟨[d], rfl, fun r hr => mem_singleton.mp hr ▸ hd⟩

lemma records_destroy (tree : ScopeTree) (scope : Nat) (s : Session) :
    s.Records pos (s.destroy tree scope pos) := by
  refine .foldl (fun s b => ?_) _ s
  unfold drop
  cases s.flow.status b with
  | owned => exact records_recordDrop rfl
  | partiallyMoved fields => exact records_recordDrop rfl
  | movedOut => exact .of_eq rfl
  | uninitialized => exact .of_eq rfl

lemma drops_drop (hs : s.replay = 0) (pos : Int) (b : Binding) :
    (drop pos s b).drops = s.drops ++ (s.flow.dropOf? pos b).toList := by
  have hrecord : ∀ d, (s.recordDrop d).drops = s.drops ++ [d] := by
    intro d
    simp [recordDrop, hs]
  unfold drop Flow.dropOf?
  cases s.flow.status b with
  | owned => exact hrecord _
  | partiallyMoved fields => exact hrecord _
  | movedOut => exact (append_nil _).symm
  | uninitialized => exact (append_nil _).symm

/-- A scope destroys what is left of its bindings, the last one first. -/
lemma drops_destroy (hs : s.replay = 0) (tree : ScopeTree) (scope : Nat) (pos : Int) :
    (s.destroy tree scope pos).drops =
      s.drops ++ (tree.dropOrder scope).filterMap (s.flow.dropOf? pos) := by
  have hall : ∀ (bs : List Binding) (t : Session), t.replay = 0 → t.flow = s.flow →
      (bs.foldl (drop pos) t).drops = t.drops ++ bs.filterMap (s.flow.dropOf? pos) := by
    intro bs
    induction bs with
    | nil => exact fun t _ _ => (append_nil _).symm
    | cons b bs ih =>
      intro t ht hflow
      have hreplay : (drop pos t b).replay = 0 := (replay_drop t pos b).trans ht
      rw [foldl_cons, ih _ hreplay ((flow_drop t pos b).trans hflow), drops_drop ht, hflow,
        append_assoc, filterMap_cons]
      cases s.flow.dropOf? pos b <;> rfl
  exact hall _ s hs rfl

end Session

namespace Context

variable {c : Context} {s s' : Session} {e : Event}

lemma records_leaveFunction (pos : Int) : s.Records pos (c.leaveFunction pos s) :=
  Session.Records.foldl (fun s S => s.records_destroy c.tree S.id) s.scopes s

lemma Acts.records {start : Session} (h : c.Acts e start s s') : s.Records e.pos s' := by
  induction h with
  | aside h => exact .of_eq h.drops
  | begin s loc => exact .of_eq rfl
  | @refuse s q f hq hf =>
    refine .of_eq ?_
    unfold Session.report
    split <;> rfl
  | mark s hb hst => exact .of_eq rfl
  | move span ht hp hm => exact .of_eq hm.drops
  | write ht hm => exact .of_eq hm.drops
  | leave s he => exact records_leaveFunction _
  | trans _ _ ih ih' => exact ih.trans ih'

lemma records_finishScope {scope : Scope} (h : c.finishScope scope s = .ok s') :
    s.Records scope.stop s' := by
  unfold finishScope at h
  split at h
  · rw [← Except.ok.inj h]
    exact .of_eq rfl
  · exact (s.records_destroy c.tree scope.id).trans (.of_eq (dangled_checkDangling h).aside.drops)

variable (hnests : c.tree.Nests c.function.events) (he : e ∈ c.function.events)

include hnests he

lemma records_execute (h : c.execute e s = .ok s') : s.Records e.pos s' := by
  cases hk : e.kind with
  | enter =>
    obtain ⟨scope, -, rfl⟩ := execute_enter hk h
    exact .of_eq rfl
  | exit =>
    obtain ⟨S, -, hstop, m, hm, rfl⟩ := exists_finished hnests he hk h
    rw [← hstop]
    exact (records_finishScope hm).trans (.of_eq rfl)
  | step => exact (acts_execute hk h).records

/-- The destructions that the visit of an event records. -/
def recorded (c : Context) (v : Event × Session) : List Drop :=
  Fault.seen (c.execute v.1 v.2) fun m => m.drops.drop v.2.drops.length

lemma drops_execute (h : c.execute e s = .ok s') : s'.drops = s.drops ++ c.recorded (e, s) := by
  obtain ⟨more, hmore, -⟩ := records_execute hnests he h
  rw [recorded, h, Fault.seen_ok, hmore, drop_left]

lemma pos_of_mem_recorded {r : Drop} (hr : r ∈ c.recorded (e, s)) : r.pos = e.pos := by
  unfold recorded at hr
  cases h : c.execute e s with
  | error fault =>
    rw [h] at hr
    cases hr
  | ok s' =>
    obtain ⟨more, hmore, hpos⟩ := records_execute hnests he h
    rw [h, Fault.seen_ok, hmore, drop_left] at hr
    exact hpos r hr

/-- In the first walk the end of a scope records what is left of its bindings, the latest
declaration first, unless the function has been left before. -/
lemma recorded_exit (hk : e.kind = .exit) {S : Scope} (hS : S ∈ c.tree.scopes)
    (hstop : e.pos = S.stop) (hs : s.replay = 0) (h : c.execute e s = .ok s') :
    c.recorded (e, s) = if s.flow.returned then [] else
      (c.tree.dropOrder S.id).filterMap (s.flow.dropOf? S.stop) := by
  have hdrops := drops_execute hnests he h
  obtain ⟨S', hS', hstop', m, hm, rfl⟩ := exists_finished hnests he hk h
  obtain rfl := hnests.eq_of_stop hS' hS (hstop'.trans hstop)
  have hclose : (m.close c.tree S'.id).drops = m.drops := rfl
  rw [hclose] at hdrops
  unfold finishScope at hm
  split at hm
  · rename_i hret
    cases hm
    rw [if_pos hret]
    exact self_eq_append_right.mp hdrops
  · rename_i hret
    rw [if_neg hret]
    rw [(dangled_checkDangling hm).aside.drops, Session.drops_destroy hs] at hdrops
    exact (append_cancel_left hdrops).symm

end Context

namespace Skeleton

variable {c : Context} {β : Type} {φ : Session → List β} {step : Event × Session → List β}
  {s s' : Session}

/-- What the executed events add to a list is what a walk adds to it, if nothing else does. -/
theorem gathered_walk (hφ : ∀ s f n t, φ { s with flow := f, replay := n, trace := t } = φ s)
    (k : Skeleton)
    (hstep : ∀ e ∈ k.events, ∀ {s s'}, c.execute e s = .ok s' → φ s' = φ s ++ step (e, s))
    (h : k.walk c s = .ok s') : φ s' = φ s ++ (k.visits c s).flatMap step := by
  rw [← filterMap_log, filterMap_eq_flatMap_toList, flatMap_assoc]
  refine gathered_log (fun s f n => hφ s f n s.trace) (fun s pos => ?_) k (fun e he s s' h => ?_) h
  · exact (hφ s s.flow s.replay _).trans (append_nil _).symm
  · rw [hstep e he h]
    exact congrArg _ (flatMap_singleton ..).symm

theorem drops_walk (hnests : c.tree.Nests c.function.events) (k : Skeleton)
    (hk : ∀ e ∈ k.events, e ∈ c.function.events) (h : k.walk c s = .ok s') :
    s'.drops = s.drops ++ (k.visits c s).flatMap c.recorded :=
  gathered_walk (fun _ _ _ _ => rfl) k
    (fun e he _ _ h => Context.drops_execute hnests (hk e he) h) h

end Skeleton

/-! ### Whole functions -/

/-- The skeleton of a function together with its end, which is reached unless the function is left
before. -/
def Function.whole (f : Function) : Skeleton :=
  .seq f.skeleton (.event (.exit 0 f.stop .function))

namespace Function

variable {f : Function} {e : Event}

lemma mem_events_of_whole (he : e ∈ f.whole.events) : e ∈ f.events := by
  rcases mem_append.mp he with he | he
  · exact f.mem_events_of_skeleton he
  · exact mem_cons_of_mem _ (mem_append_right _ he)

lemma spans_whole (f : Function) : f.whole.Spans f.bodyStart (f.stop + 1) :=
  ⟨f.stop, Stmt.spans_skeletonAll f.bodyStart f.body.stmts, rfl, rfl⟩

lemma guarded_whole (f : Function) (c : Context) : f.whole.Guarded c ∧ f.whole.guards c = [] := by
  obtain ⟨hguarded, hnone⟩ := Stmt.guarded_skeletonAll c f.bodyStart f.body.stmts
  exact ⟨Skeleton.guarded_seq_of_nil hguarded trivial rfl, hnone⟩

/-- Whether events lead through a function to the end of a scope. -/
def Ends (f : Function) (S : Scope) (π : List Event) : Prop :=
  ∃ x, f.whole.LeadsTo π x ∧ x.kind = .exit ∧ x.pos = S.stop

end Function

namespace Context

variable {c : Context} {s : Session}

/-- A run is the walk of the whole function. -/
lemma exists_walk_whole (hc : c.tracksLoans = true) (hnests : c.tree.Nests c.function.events)
    (h : c.run = .ok s) : ∃ s₀ s', c.initial = .ok s₀ ∧ c.function.whole.walk c s₀ = .ok s' ∧
      s'.drops = s.drops ∧ s'.findings <+: s.findings ∧ s'.loans = s.loans := by
  obtain ⟨s₀, s₁, h₀, h₁, hexit⟩ := run_cases h
  refine ⟨s₀, if s₁.flow.returned then s₁ else s, h₀, ?_⟩
  have hwalk : c.function.whole.walk c s₀ = if s₁.flow.returned then .ok s₁ else
      c.execute (.exit 0 c.function.stop .function) s₁ := by
    rw [Function.whole, Skeleton.walk, h₁]
    rfl
  split
  · rename_i hret
    have hend : Event.exit 0 c.function.stop .function ∈ c.function.events :=
      mem_cons_of_mem _ (mem_append_right _ mem_cons_self)
    refine ⟨hwalk.trans (if_pos hret), ?_, (performs hc _).grows hexit, ?_⟩ <;>
    · obtain ⟨S, -, -, m, hm, rfl⟩ := exists_finished hnests hend rfl hexit
      rw [finishScope, if_pos hret] at hm
      cases hm
      rfl
  · rename_i hret
    exact ⟨(hwalk.trans (if_neg hret)).trans hexit, rfl, prefix_refl _, rfl⟩

variable {vs : List (Event × Session)} {p : Int}

lemma filter_recorded_eq_nil (hnests : c.tree.Nests c.function.events)
    (hvs : ∀ v ∈ vs, v.1 ∈ c.function.events) (hnone : ∀ v ∈ vs, v.1.pos = p → c.recorded v = []) :
    (vs.flatMap c.recorded).filter (·.pos = p) = [] := by
  rw [filter_eq_nil_iff]
  intro r hr hpos
  obtain ⟨v, hv, hr⟩ := mem_flatMap.mp hr
  have hrpos := pos_of_mem_recorded hnests (hvs v hv) hr
  rw [hnone v hv (hrpos.symm.trans (of_decide_eq_true hpos))] at hr
  cases hr

/-- The records at a position are those of its only visit. -/
lemma filter_recorded (hnests : c.tree.Nests c.function.events)
    (hvs : ∀ v ∈ vs, v.1 ∈ c.function.events) (honce : vs.Pairwise fun v w => v.1.pos < w.1.pos)
    {v : Event × Session} (hv : v ∈ vs) (hpos : v.1.pos = p) :
    (vs.flatMap c.recorded).filter (·.pos = p) = c.recorded v := by
  obtain ⟨before, after, rfl⟩ := append_of_mem hv
  obtain ⟨-, hafter, hbefore⟩ := pairwise_append.mp honce
  have hself : (c.recorded v).filter (·.pos = p) = c.recorded v := by
    rw [filter_eq_self]
    intro r hr
    exact decide_eq_true ((pos_of_mem_recorded hnests (hvs v hv) hr).trans hpos)
  have hfirst : (before.flatMap c.recorded).filter (·.pos = p) = [] := by
    refine filter_recorded_eq_nil hnests (fun w hw => hvs w (mem_append_left _ hw))
      fun w hw h => ?_
    have := hbefore w hw v mem_cons_self
    omega
  have hlast : (after.flatMap c.recorded).filter (·.pos = p) = [] := by
    refine filter_recorded_eq_nil hnests
      (fun w hw => hvs w (mem_append_right _ (mem_cons_of_mem _ hw))) fun w hw h => ?_
    have := (pairwise_cons.mp hafter).1 w hw
    omega
  rw [flatMap_append, flatMap_cons, filter_append, filter_append, hself, hfirst,
    hlast, nil_append, append_nil]

/-! ### Paths to the end of a scope -/

/-- Whether a walk comes to the end of a scope without having left the function. -/
def Reaches (c : Context) (S : Scope) : Prop :=
  ∃ s₀ x u, c.initial = .ok s₀ ∧ (x, u) ∈ c.function.whole.visits c s₀ ∧ x.kind = .exit ∧
    x.pos = S.stop ∧ u.flow.returned = false

/-- Whether a single path comes to the end of a scope in an ownership state. -/
def EndsIn (c : Context) (S : Scope) (g : Flow) : Prop :=
  ∃ s₀ π t, c.initial = .ok s₀ ∧ c.function.Ends S π ∧ c.follow π s₀ = .ok t ∧ t.flow = g

/-- Whether a part of a binding has been moved on some path to the end of a scope. -/
def PartMoved (c : Context) (S : Scope) (b : Binding) (q : Place) : Prop :=
  q.base = b ∧ q.path ≠ [] ∧ ∃ g, c.EndsIn S g ∧ g.stateOf q = .moved

/-- Whether a record, or that there is none, says what the paths to the end of a scope leave of a
binding. -/
structure Remains (c : Context) (S : Scope) (b : Binding) (o : Option Drop) : Prop where
  recorded : o.isSome ↔ c.Reaches S ∧ ∀ g, c.EndsIn S g → g.stateOf (.ofBinding b) = .owned
  named : ∀ r ∈ o, r.binding = b.name ∧ r.declaredAt = b.declaredAt ∧ r.pos = S.stop
  partly : ∀ r ∈ o, (r.isPartial = true ↔ ∃ q, c.PartMoved S b q)
  fields : ∀ r ∈ o, ∃ qs : List Place, qs.Nodup ∧ r.movedFields = qs.map (·.relativePath) ∧
    ∀ q, q ∈ qs ↔ c.PartMoved S b q

/-- The record that is made from the join of all paths says what they leave. -/
lemma remains_dropOf? {S : Scope} {f : Flow} (hreach : c.Reaches S) (h : f.Joins (c.EndsIn S))
    (b : Binding) : c.Remains S b (f.dropOf? S.stop b) := by
  have hparts : ∀ q, q ∈ f.movedParts b ↔ c.PartMoved S b q := by
    intro q
    rw [Flow.mem_movedParts, h.moved_iff]
    rfl
  have hall : (f.dropOf? S.stop b).isSome ↔ f.stateOf (.ofBinding b) = .owned := by
    rw [Flow.dropOf?_eq]
    split <;> simp_all
  refine ⟨?_, fun r hr => Flow.dropOf?_eq_some hr, fun r hr => ?_, fun r hr => ?_⟩
  · rw [hall, h.owned_iff, and_iff_right hreach]
  · rw [Flow.dropOf?_eq] at hr
    split at hr
    · cases hr
      simp only [← hparts, Bool.not_eq_true', isEmpty_eq_false_iff_exists_mem]
    · cases hr
  · rw [Flow.dropOf?_eq] at hr
    split at hr
    · cases hr
      exact ⟨f.movedParts b, Flow.nodup_movedParts, rfl, hparts⟩
    · cases hr

section Straight

variable {s₀ s' u : Session} {x : Event} {S : Scope} (hc : c.tracksLoans = true)
  (hr : c.replays = 1)
  (honce : ∀ pos test body loc, Event.test pos test body loc ∉ c.function.whole.events)
  (h₀ : c.initial = .ok s₀) (hwalk : c.function.whole.walk c s₀ = .ok s')

include hc hr h₀ hwalk

lemma mem_events_of_visit {v : Event × Session} (hv : v ∈ c.function.whole.visits c s₀) :
    v.1 ∈ c.function.events := by
  have hmap := Skeleton.map_fst_visits hc hr _ hwalk (initial_fields h₀).2.1
  have hvisited : v.1 ∈ c.function.whole.visited := hmap ▸ mem_map_of_mem hv
  exact Function.mem_events_of_whole (Skeleton.mem_events_of_visited _ hvisited)

include honce

lemma pairwise_visits_whole :
    (c.function.whole.visits c s₀).Pairwise fun v w => v.1.pos < w.1.pos := by
  have hsorted := c.function.spans_whole.pairwise_events.sublist
    (Skeleton.visited_sublist_events _ honce)
  rw [← Skeleton.map_fst_visits hc hr _ hwalk (initial_fields h₀).2.1, pairwise_map] at hsorted
  exact hsorted

lemma first_visit_whole (hu : (x, u) ∈ c.function.whole.visits c s₀) :
    u.replay = 0 ∧ ∃ m, c.execute x u = .ok m := by
  have htrail := Skeleton.walk_trail hr True _ (fun _ => honce) hwalk
  obtain ⟨before, after, hsplit⟩ := append_of_mem hu
  rw [hsplit] at htrail
  obtain ⟨hbefore, m, hm, -⟩ := htrail.split
  refine ⟨?_, m, hm⟩
  have hbooked : Loan.Booked s₀.loans := by
    rw [(initial_fields h₀).1]
    exact .nil
  exact (hbefore.replay hc hbooked trivial).trans (replay_initial h₀)

lemma meets_whole (hclean : s'.Clean) : Skeleton.Meets c c.function.whole s₀ := by
  obtain ⟨hguarded, hnone⟩ := c.function.guarded_whole c
  have hclears :=
    Skeleton.clears_of_walk hc hr _ hguarded hwalk (Skeleton.admits_nil hnone _) hclean
  exact hclears.meets hc honce (initial_fields h₀).2.1

/-- Where the walk comes to the end of a scope it joins all the paths that do. -/
lemma joins_endsIn (hclean : s'.Clean) (hu : (x, u) ∈ c.function.whole.visits c s₀)
    (hk : x.kind = .exit) (hpos : x.pos = S.stop) (hret : u.flow.returned = false) :
    u.flow.Joins (c.EndsIn S) := by
  have hmeets := meets_whole hc hr honce h₀ hwalk hclean
  have hsorted := pairwise_visits_whole hc hr honce h₀ hwalk
  have hnodup : ((c.function.whole.visits c s₀).map (·.1.pos)).Nodup :=
    pairwise_map.mpr (hsorted.imp ne_of_lt)
  constructor
  · rintro g ⟨s₀', π, t, h₀', ⟨x', hx', -, hpos'⟩, ht, rfl⟩ q
    obtain rfl := ok_inj h₀ h₀'
    obtain ⟨u', hu', hcov⟩ := hmeets.covers hx'
    -- The path is covered by the visit at this position, and there is only one.
    have hsame := inj_on_of_nodup_map hnodup hu' hu (hpos'.trans hpos.symm)
    obtain ⟨-, rfl⟩ := Prod.mk.inj hsame
    rw [follow_leaves hc ht hcov.passes q]
    exact hcov.bound rfl q
  · intro q
    obtain ⟨π, hπ, hatt⟩ := hmeets.attains hu hret q
    obtain ⟨t, ht, -⟩ :=
      follow_completes hc hatt.covers.ready (loansTyped_initial h₀) hatt.covers.passes
    refine ⟨t.flow, ⟨s₀, π, t, h₀, ⟨x, hπ, hk, hpos⟩, ht, rfl⟩, ?_⟩
    rw [follow_leaves hc ht hatt.covers.passes q, hatt.attained]

/-- Every path to the end of a scope can be followed, and the walk comes there too. -/
lemma reaches_of_ends (hclean : s'.Clean) {π : List Event} (hπ : c.function.Ends S π) :
    c.Reaches S ∧ ∃ t, c.follow π s₀ = .ok t := by
  obtain ⟨x, hx, hk, hpos⟩ := hπ
  obtain ⟨u, hu, hcov⟩ := (meets_whole hc hr honce h₀ hwalk hclean).covers hx
  obtain ⟨t, ht, -⟩ := follow_completes hc hcov.ready (loansTyped_initial h₀) hcov.passes
  exact ⟨⟨s₀, x, u, h₀, hu, hk, hpos, hcov.goesOn rfl⟩, t, ht⟩

/-- What is recorded at the end of a scope says what the paths to it leave of the bindings. -/
lemma exists_remains (hnests : c.tree.Nests c.function.events) (hclean : s'.Clean)
    (hS : S ∈ c.tree.scopes) : ∃ left : Binding → Option Drop,
      s'.drops.filter (·.pos = S.stop) = (c.tree.dropOrder S.id).filterMap left ∧
      ∀ b, c.Remains S b (left b) := by
  have hvisits : ∀ v ∈ c.function.whole.visits c s₀, v.1 ∈ c.function.events := fun v hv =>
    mem_events_of_visit hc hr h₀ hwalk hv
  have hall : s'.drops = (c.function.whole.visits c s₀).flatMap c.recorded := by
    rw [Skeleton.drops_walk hnests _ (fun e => Function.mem_events_of_whole) hwalk]
    obtain ⟨root, -, rfl⟩ := map_eq_ok.mp h₀
    rw [start_eq]
    rfl
  have hexit : ∀ {x u}, (x, u) ∈ c.function.whole.visits c s₀ → x.kind = .exit → x.pos = S.stop →
      c.recorded (x, u) = if u.flow.returned then [] else
        (c.tree.dropOrder S.id).filterMap (u.flow.dropOf? S.stop) := by
    intro x u hu hk hpos
    obtain ⟨hfirst, m, hm⟩ := first_visit_whole hc hr honce h₀ hwalk hu
    exact recorded_exit hnests (hvisits _ hu) hk hS hpos hfirst hm
  rw [hall]
  by_cases hreach : c.Reaches S
  · obtain ⟨s₀', x, u, h₀', hu, hk, hpos, hret⟩ := id hreach
    obtain rfl := ok_inj h₀ h₀'
    refine ⟨u.flow.dropOf? S.stop, ?_, fun b => ?_⟩
    · rw [filter_recorded hnests hvisits (pairwise_visits_whole hc hr honce h₀ hwalk) hu hpos,
        hexit hu hk hpos, if_neg (by simp [hret])]
    · exact remains_dropOf? hreach (joins_endsIn hc hr honce h₀ hwalk hclean hu hk hpos hret) b
  · refine ⟨fun _ => none, ?_, fun b => ?_⟩
    · rw [filter_recorded_eq_nil hnests hvisits, filterMap_none]
      rintro ⟨x, u⟩ hu hpos
      have hk : x.kind = .exit := by
        by_contra hne
        exact hnests.stop_ne (hvisits _ hu) hne hS hpos.symm
      rw [hexit hu hk hpos, if_pos]
      by_contra hne
      exact hreach ⟨s₀, x, u, h₀, hu, hk, hpos, by simpa using hne⟩
    · refine ⟨iff_of_false (by simp) fun h => hreach h.1, ?_, ?_, ?_⟩
      all_goals
        intro r hr
        cases hr

end Straight

/-- Destruction at the ends of scopes is exact in every function without loops in which no use is
refused. A walk comes to the end of a scope if some path does, and all such paths can be followed.
What is recorded there is one record for each binding of the scope that is initialized and not
moved as a whole on any of these paths, in the reverse order of declaration; the record is partial
if one of the paths has moved a part of the binding, and it lists the parts that are moved on some
path. -/
theorem drops_at_scope_end {program : Program} {f : Function} {options : Options} {c : Context}
    {s : Session} (hbuild : build program f options = .ok c) (hrun : c.run = .ok s)
    (hclean : s.Clean) (honce : ∀ pos test body loc, Event.test pos test body loc ∉ f.events)
    {S : Scope} (hS : S ∈ c.tree.scopes) :
    (c.Reaches S ↔ ∃ π, f.Ends S π) ∧
    (∀ s₀ π, c.initial = .ok s₀ → f.Ends S π → ∃ t, c.follow π s₀ = .ok t) ∧
    ((c.tree.dropOrder S.id).Pairwise fun b b' =>
      b'.index < b.index ∧ b'.declaredAt ≤ b.declaredAt) ∧
    ∃ left : Binding → Option Drop,
      s.drops.filter (·.pos = S.stop) = (c.tree.dropOrder S.id).filterMap left ∧
      ∀ b ∈ c.tree.bindingsOf S.id, c.Remains S b (left b) := by
  obtain ⟨hc, hr, rfl⟩ := build_fields hbuild
  have hnests := nests_of_build hbuild
  obtain ⟨s₀, s', h₀, hwalk, hdrops, hgrows, -⟩ := exists_walk_whole hc hnests hrun
  have hclean' : s'.Clean := hclean.of_prefix hgrows
  have honce' : ∀ pos test body loc, Event.test pos test body loc ∉ c.function.whole.events :=
    fun pos test body loc he => honce pos test body loc (Function.mem_events_of_whole he)
  have hpaths : ∀ {π}, c.function.Ends S π → c.Reaches S ∧ ∃ t, c.follow π s₀ = .ok t :=
    reaches_of_ends hc hr honce' h₀ hwalk hclean'
  refine ⟨⟨?_, ?_⟩, ?_, ?_, ?_⟩
  · rintro ⟨s₀', x, u, h₀', hu, hk, hpos, hret⟩
    obtain rfl := ok_inj h₀ h₀'
    obtain ⟨g, ⟨_, π, _, _, hπ, _⟩, -⟩ :=
      (joins_endsIn hc hr honce' h₀ hwalk hclean' hu hk hpos hret).attained default
    exact ⟨π, hπ⟩
  · rintro ⟨π, hπ⟩
    exact (hpaths hπ).1
  · intro s₀' π h₀' hπ
    obtain rfl := ok_inj h₀ h₀'
    exact (hpaths hπ).2
  · rw [ScopeTree.dropOrder, pairwise_reverse]
    exact (ScopeTree.bindings_in_order (tree_of_build hbuild)).filter _
  · obtain ⟨left, hleft, hremains⟩ := exists_remains hc hr honce' h₀ hwalk hnests hclean' hS
    exact ⟨left, hdrops ▸ hleft, fun b _ => hremains b⟩

end Context

def Program.pairs : Program where
  types := (TypeTable.empty.run [.ensureString, .ensureBool,
    .declareStruct "Pair" (some [⟨"left", ⟨1⟩⟩, ⟨"right", ⟨1⟩⟩])]).2

/-- Takes a pair and leaves, or takes one half of it or something else. -/
def Function.halving : Function where
  name := "halving"
  params := [⟨"c", some ⟨2⟩, false, .unknown⟩, ⟨"p", some ⟨3⟩, false, .unknown⟩,
    ⟨"x", some ⟨1⟩, false, .unknown⟩]
  body := .mk [
    .branch (.var "c" .unknown)
      (.mk [.declare "w" none (.var "p" .unknown) false .unknown, .ret .absent .unknown] .unknown)
      none .unknown,
    .branch (.var "c" .unknown)
      (.mk [.declare "y" none (.field (.var "p" .unknown) "left" .unknown) false .unknown] .unknown)
      (some (.mk [.declare "z" none (.var "x" .unknown) false .unknown] .unknown)) .unknown]
        .unknown

namespace Context

/-- The way that takes the whole pair leaves before the end. Of the other two, one has taken a half
of the pair and one has taken `x`: the rest of the pair is destroyed, and `x` is not. -/
theorem drops_at_scope_end_halving : ∃ c s S,
    build .pairs .halving {} = .ok c ∧ c.run = .ok s ∧ s.Clean ∧
    (∀ pos test body loc, Event.test pos test body loc ∉ Function.halving.events) ∧
    S ∈ c.tree.scopes ∧ S.stop = 16 ∧
    s.drops.filter (·.pos = 16) = [⟨"p", 2, 16, true, ["left"]⟩, ⟨"c", 1, 16, false, []⟩] ∧
    (∃ b ∈ c.tree.bindingsOf S.id, b.name = "p" ∧
      (∀ g, c.EndsIn S g → g.stateOf (.ofBinding b) = .owned) ∧ ∃ q, c.PartMoved S b q) ∧
    ∃ b ∈ c.tree.bindingsOf S.id, b.name = "x" ∧
      ∃ g, c.EndsIn S g ∧ g.stateOf (.ofBinding b) ≠ .owned := by
  have hok : ((build .pairs .halving {} >>= fun c => (c, ·) <$> c.run).toOption.any fun r =>
      r.1.tree.scopes.any fun S => decide (r.2.Clean ∧ S.stop = 16 ∧
        r.2.drops.filter (·.pos = 16) = [⟨"p", 2, 16, true, ["left"]⟩, ⟨"c", 1, 16, false, []⟩] ∧
        ∃ b ∈ r.1.tree.bindingsOf S.id, b.name = "x")) = true := by decide +kernel
  obtain ⟨c, s, hbuild, hrun, htest⟩ := exists_run_of_test hok
  obtain ⟨S, hS, htest⟩ := any_eq_true.mp htest
  obtain ⟨hclean, hstop, hdrops, x, hx, hname⟩ := of_decide_eq_true htest
  have honce : ∀ pos test body loc, Event.test pos test body loc ∉ Function.halving.events := by
    have hall : ∀ e ∈ Function.halving.events, e.node.kindName ≠ "While" := by decide +kernel
    exact fun pos test body loc he => hall _ he rfl
  obtain ⟨-, -, -, left, hleft, hremains⟩ := drops_at_scope_end hbuild hrun hclean honce hS
  rw [hstop, hdrops] at hleft
  have hmem : ⟨"p", 2, 16, true, ["left"]⟩ ∈ (c.tree.dropOrder S.id).filterMap left :=
    hleft ▸ mem_cons_self
  obtain ⟨b, hb, hp⟩ := mem_filterMap.mp hmem
  have hb : b ∈ c.tree.bindingsOf S.id := mem_reverse.mp hb
  obtain ⟨hreach, howned⟩ := (hremains b hb).recorded.mp (Option.isSome_of_eq_some hp)
  have hnone : left x = none := by
    rw [Option.eq_none_iff_forall_ne_some]
    intro r hr
    have hmem : r ∈ (c.tree.dropOrder S.id).filterMap left :=
      mem_filterMap.mpr ⟨x, mem_reverse.mpr hx, hr⟩
    have hrx := ((hremains x hx).named r hr).1.trans hname
    rw [← hleft] at hmem
    simp only [mem_cons, not_mem_nil, or_false] at hmem
    rcases hmem with rfl | rfl <;> simp at hrx
  have hlost : ¬∀ g, c.EndsIn S g → g.stateOf (.ofBinding x) = .owned := by
    intro hall
    have := (hremains x hx).recorded.mpr ⟨hreach, hall⟩
    rw [hnone] at this
    cases this
  refine ⟨c, s, S, hbuild, hrun, hclean, honce, hS, hstop, hdrops, ⟨b, hb, ?_, howned, ?_⟩, x, hx,
    hname, ?_⟩
  · exact ((hremains b hb).named _ hp).1.symm
  · exact ((hremains b hb).partly _ hp).mp rfl
  · push Not at hlost
    exact hlost

end Context

end Ownership
