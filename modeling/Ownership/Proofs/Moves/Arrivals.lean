import Ownership.Proofs.Control.Visits
import Ownership.Proofs.Moves.Precision

/-!
# The states in which paths arrive

A walk through a body without loops comes past each event once, in one session for all the paths
that lead there. Every path arrives below the state of this session, and for each place some path
arrives in it.
-/

namespace Ownership

open List

namespace Skeleton

variable {c : Context} {s s' u : Session} {π : List Event} {x : Event} {q : Place} {k l : Skeleton}

/-! ### Beginnings of paths -/

/-- Whether events are the beginning of a path that goes on with an event. -/
def LeadsTo (k : Skeleton) (π : List Event) (x : Event) : Prop :=
  ∃ rest r, k.Path (π ++ x :: rest) r

lemma not_leadsTo_done : ¬done.LeadsTo π x := by
  rintro ⟨rest, r, h, -⟩
  simp at h

lemma leadsTo_event {e : Event} : (event e).LeadsTo π x ↔ π = [] ∧ x = e := by
  constructor
  · rintro ⟨rest, r, h, -⟩
    obtain ⟨rfl, h⟩ | ⟨_, -, h⟩ := append_eq_cons_iff.mp h
    · exact ⟨rfl, (cons.inj h).1⟩
    · simp at h
  · rintro ⟨rfl, rfl⟩
    exact ⟨[], x.isReturn, rfl, rfl⟩

lemma append_eq_append_cons {as bs rest : List Event} (h : as ++ bs = π ++ x :: rest) :
    (∃ more, as = π ++ x :: more) ∨ ∃ ρ, π = as ++ ρ ∧ bs = ρ ++ x :: rest := by
  rcases append_eq_append_iff.mp h with ⟨ρ, hπ, hbs⟩ | ⟨ρ, has, hrest⟩
  · exact .inr ⟨ρ, hπ, hbs⟩
  · cases ρ with
    | nil =>
      rw [append_nil] at has
      exact .inr ⟨[], by simp [has], hrest.symm⟩
    | cons y ρ =>
      obtain ⟨rfl, -⟩ := cons.inj hrest
      exact .inl ⟨ρ, has⟩

/-- Paths lead to the entry of a scope, into its body, or through it to its end. -/
lemma leadsTo_scope {start stop : Int} {node : Node} {kind : ScopeKind} {body : Skeleton} :
    (scope start stop node kind body).LeadsTo π x ↔
      π = [] ∧ x = .enter start node kind ∨
      ∃ ρ, π = .enter start node kind :: ρ ∧
        (body.LeadsTo ρ x ∨ body.Path ρ false ∧ x = .exit start stop node) := by
  constructor
  · rintro ⟨rest, r, ρ, hρ, h⟩
    cases π with
    | nil => exact .inl ⟨rfl, (cons.inj h).1⟩
    | cons e π =>
      obtain ⟨rfl, htail⟩ := cons.inj h
      refine .inr ⟨π, rfl, ?_⟩
      rcases append_eq_append_cons htail.symm with ⟨more, rfl⟩ | ⟨ρ', rfl, hlast⟩
      · exact .inl ⟨more, r, hρ⟩
      · cases r with
        | true => simp at hlast
        | false =>
          obtain ⟨rfl, hexit⟩ := leadsTo_event.mp ⟨rest, _, hlast.symm, rfl⟩
          exact .inr ⟨by simpa using hρ, hexit⟩
  · rintro (⟨rfl, rfl⟩ | ⟨ρ, rfl, ⟨rest, r, hρ⟩ | ⟨hρ, rfl⟩⟩)
    · obtain ⟨ρ, r, hρ⟩ := body.exists_path
      exact ⟨_, r, ρ, hρ, rfl⟩
    · refine ⟨rest ++ if r then [] else [.exit start stop node], r, _, hρ, ?_⟩
      simp
    · exact ⟨[], false, ρ, hρ, rfl⟩

/-- Paths lead into the first part, or through it into the second. -/
lemma leadsTo_seq : (seq k l).LeadsTo π x ↔
      k.LeadsTo π x ∨ ∃ π₁ π₂, k.Path π₁ false ∧ l.LeadsTo π₂ x ∧ π = π₁ ++ π₂ := by
  constructor
  · rintro ⟨rest, r, ⟨hπ, rfl⟩ | ⟨π₁, π₂, h₁, h₂, h⟩⟩
    · exact .inl ⟨rest, true, hπ⟩
    · rcases append_eq_append_cons h.symm with ⟨more, rfl⟩ | ⟨ρ, rfl, rfl⟩
      · exact .inl ⟨more, false, h₁⟩
      · exact .inr ⟨π₁, ρ, h₁, ⟨rest, r, h₂⟩, rfl⟩
  · rintro (⟨rest, r, hπ⟩ | ⟨π₁, π₂, h₁, ⟨rest, r, h₂⟩, rfl⟩)
    · cases r with
      | true => exact ⟨rest, true, .inl ⟨hπ, rfl⟩⟩
      | false =>
        obtain ⟨ρ, r, hρ⟩ := l.exists_path
        exact ⟨rest ++ ρ, r, .inr ⟨_, ρ, hπ, hρ, by simp⟩⟩
    · exact ⟨rest, r, .inr ⟨π₁, _, h₁, h₂, by simp⟩⟩

lemma leadsTo_fork : (fork k l).LeadsTo π x ↔ k.LeadsTo π x ∨ l.LeadsTo π x := by
  constructor
  · rintro ⟨rest, r, h | h⟩
    · exact .inl ⟨rest, r, h⟩
    · exact .inr ⟨rest, r, h⟩
  · rintro (⟨rest, r, h⟩ | ⟨rest, r, h⟩)
    · exact ⟨rest, r, .inl h⟩
    · exact ⟨rest, r, .inr h⟩

/-! ### Visits -/

lemma Attains.refl (hs : s.flow.returned = false) (q : Place) : Attains c s s [] q where
  covers := ⟨(fun _ he => nomatch he), fun _ => trivial, fun _ => hs, fun _ _ => le_refl _⟩
  attained := rfl

/-- What is the case in a body without loops where one of its events is visited: a path that leads
to the event is covered by a visit, and if the visit does not come after a return, each state in
which it meets a place is attained by such a path. -/
structure Meets (c : Context) (k : Skeleton) (s : Session) : Prop where
  covers : ∀ {π x}, k.LeadsTo π x → ∃ u, (x, u) ∈ k.visits c s ∧ Covers c s u π false
  attains : ∀ {x u}, (x, u) ∈ k.visits c s → u.flow.returned = false →
    ∀ q, ∃ π, k.LeadsTo π x ∧ Attains c s u π q

section Parts

variable {m : Session} (hc : c.tracksLoans = true)

lemma Meets.event {e : Event} (hs : s.flow.returned = false) : Meets c (event e) s where
  covers hx := by
    obtain ⟨rfl, rfl⟩ := leadsTo_event.mp hx
    exact ⟨s, mem_singleton_self _, (Attains.refl hs default).covers⟩
  attains hu _ q := by
    obtain ⟨rfl, rfl⟩ := Prod.mk.inj (mem_singleton.mp hu)
    exact ⟨[], leadsTo_event.mpr ⟨rfl, rfl⟩, .refl hs q⟩

include hc

lemma Meets.scope {start stop : Int} {node : Node} {kind : ScopeKind} {m' : Session}
    (hm : c.execute (.enter start node kind) s = .ok m) (hmclean : m.Clean)
    (hwalk : k.walk c m = .ok m') (hclears : Clears c k m m') (hs : s.flow.returned = false)
    (hbody : Meets c k m) : Meets c (scope start stop node kind k) s := by
  have hmret : m.flow.returned = false := Context.returned_execute rfl hm hs
  have henter : ∀ q, Attains c s m [.enter start node kind] q := fun q =>
    attains_event hc hm (fun p hp => nomatch hp) hs hmclean rfl
  have hvisits : (Skeleton.scope start stop node kind k).visits c s =
      (.enter start node kind, s) :: (k.visits c m ++ [(.exit start stop node, m')]) := by
    rw [visits, hm, Fault.seen_ok, hwalk, Fault.seen_ok]
  constructor
  · intro π x hx
    rw [hvisits]
    rcases leadsTo_scope.mp hx with ⟨rfl, rfl⟩ | ⟨ρ, rfl, hx | ⟨hρ, rfl⟩⟩
    · exact ⟨s, mem_cons_self, (Attains.refl hs default).covers⟩
    · obtain ⟨u, hu, hcov⟩ := hbody.covers hx
      refine ⟨u, ?_, (henter default).covers.append hcov⟩
      exact mem_cons_of_mem _ (mem_append_left _ hu)
    · refine ⟨m', ?_, (henter default).covers.append (hclears.covers hc hmret hρ)⟩
      exact mem_cons_of_mem _ (mem_append_right _ mem_cons_self)
  · intro x u hu hret q
    rw [hvisits, mem_cons, mem_append, mem_singleton] at hu
    rcases hu with hu | hu | hu
    · obtain ⟨rfl, rfl⟩ := Prod.mk.inj hu
      exact ⟨[], leadsTo_scope.mpr (.inl ⟨rfl, rfl⟩), .refl hs q⟩
    · obtain ⟨ρ, hρ, hatt⟩ := hbody.attains hu hret q
      exact ⟨_, leadsTo_scope.mpr (.inr ⟨ρ, rfl, .inl hρ⟩), (henter q).append hatt⟩
    · obtain ⟨rfl, rfl⟩ := Prod.mk.inj hu
      obtain ⟨ρ, hρ, hatt⟩ := hclears.attains hc hmret hret q
      exact ⟨_, leadsTo_scope.mpr (.inr ⟨ρ, rfl, .inr ⟨hρ, rfl⟩⟩), (henter q).append hatt⟩

/-- Nothing leads to the second part if no path goes on after the first. -/
lemma Meets.stop (hwalk : k.walk c s = .ok m) (hclears : Clears c k s m)
    (hmret : m.flow.returned = true) (hs : s.flow.returned = false) (hk : Meets c k s) :
    Meets c (seq k l) s := by
  have hvisits : (Skeleton.seq k l).visits c s = k.visits c s := by
    rw [visits, hwalk, Fault.seen_ok, hmret, if_pos rfl, append_nil]
  constructor
  · intro π x hx
    rw [hvisits]
    rcases leadsTo_seq.mp hx with hx | ⟨π₁, π₂, h₁, hx₂, rfl⟩
    · exact hk.covers hx
    · cases hmret.symm.trans ((hclears.covers hc hs h₁).goesOn rfl)
  · intro x u hu hret q
    rw [hvisits] at hu
    obtain ⟨π, hπ, hatt⟩ := hk.attains hu hret q
    exact ⟨π, leadsTo_seq.mpr (.inl hπ), hatt⟩

lemma Meets.seq (hwalk : k.walk c s = .ok m) (hclears : Clears c k s m)
    (hmret : m.flow.returned = false) (hs : s.flow.returned = false) (hk : Meets c k s)
    (hl : Meets c l m) : Meets c (seq k l) s := by
  have hvisits : (Skeleton.seq k l).visits c s = k.visits c s ++ l.visits c m := by
    rw [visits, hwalk, Fault.seen_ok, hmret, if_neg Bool.false_ne_true]
  constructor
  · intro π x hx
    rw [hvisits]
    rcases leadsTo_seq.mp hx with hx | ⟨π₁, π₂, h₁, hx₂, rfl⟩
    · obtain ⟨u, hu, hcov⟩ := hk.covers hx
      exact ⟨u, mem_append_left _ hu, hcov⟩
    · obtain ⟨u, hu, hcov₂⟩ := hl.covers hx₂
      exact ⟨u, mem_append_right _ hu, (hclears.covers hc hs h₁).append hcov₂⟩
  · intro x u hu hret q
    rw [hvisits] at hu
    rcases mem_append.mp hu with hu | hu
    · obtain ⟨π, hπ, hatt⟩ := hk.attains hu hret q
      exact ⟨π, leadsTo_seq.mpr (.inl hπ), hatt⟩
    · obtain ⟨π, hπ, hatt⟩ := hclears.attains hc hs hmret q
      obtain ⟨ρ, hρ, hatt'⟩ := hl.attains hu hret q
      exact ⟨π ++ ρ, leadsTo_seq.mpr (.inr ⟨π, ρ, hπ, hρ, rfl⟩), hatt.append hatt'⟩

omit hc in
lemma Meets.fork (hwalk : k.walk c s = .ok m) (hk : Meets c k s)
    (hl : Meets c l (m.withFlow s.flow)) : Meets c (fork k l) s := by
  have hvisits :
      (Skeleton.fork k l).visits c s = k.visits c s ++ l.visits c (m.withFlow s.flow) := by
    rw [visits, hwalk, Fault.seen_ok]
  constructor
  · intro π x hx
    rw [hvisits]
    rcases leadsTo_fork.mp hx with hx | hx
    · obtain ⟨u, hu, hcov⟩ := hk.covers hx
      exact ⟨u, mem_append_left _ hu, hcov⟩
    · obtain ⟨u, hu, hcov⟩ := hl.covers hx
      exact ⟨u, mem_append_right _ hu, hcov.of_below rfl (.refl _)⟩
  · intro x u hu hret q
    rw [hvisits] at hu
    rcases mem_append.mp hu with hu | hu
    · obtain ⟨π, hπ, hatt⟩ := hk.attains hu hret q
      exact ⟨π, leadsTo_fork.mpr (.inl hπ), hatt⟩
    · obtain ⟨π, hπ, hatt⟩ := hl.attains hu hret q
      exact ⟨π, leadsTo_fork.mpr (.inr hπ), hatt.of_below rfl (.refl _) rfl⟩

end Parts

/-- Where an event is visited in a walk without refusals, the walk meets all paths to it. -/
theorem Clears.meets (hc : c.tracksLoans = true) (h : Clears c k s s')
    (honce : ∀ pos test body loc, Event.test pos test body loc ∉ k.events)
    (hs : s.flow.returned = false) : Meets c k s := by
  induction h with
  | done => exact ⟨fun hx => (not_leadsTo_done hx).elim, fun hu => nomatch hu⟩
  | event => exact .event hs
  | scope hm hmclean hwalk hclears _ _ ih =>
    refine .scope hc hm hmclean hwalk hclears hs (ih (fun pos test b loc he => ?_) ?_)
    · exact honce pos test b loc (mem_cons_of_mem _ (mem_append_left _ he))
    · exact Context.returned_execute rfl hm hs
  | noted _ ih =>
    obtain ⟨hcov, hatt⟩ := ih honce hs
    exact ⟨hcov, hatt⟩
  | stop hwalk hclears hmret ih =>
    have hfirst := ih (fun pos test b loc he => honce pos test b loc (mem_append_left _ he)) hs
    exact .stop hc hwalk hclears hmret hs hfirst
  | seq hwalk hclears hmret _ ih ih' =>
    have hfirst := ih (fun pos test b loc he => honce pos test b loc (mem_append_left _ he)) hs
    have hsecond := ih' (fun pos test b loc he => honce pos test b loc (mem_append_right _ he))
      hmret
    exact .seq hc hwalk hclears hmret hs hfirst hsecond
  | fork hwalk _ _ ih₁ ih₂ =>
    have hleft := ih₁ (fun pos test b loc he => honce pos test b loc (mem_append_left _ he)) hs
    have hright := ih₂ (fun pos test b loc he => honce pos test b loc (mem_append_right _ he)) hs
    exact .fork hwalk hleft hright
  | loop => exact (honce _ _ _ _ mem_cons_self).elim

end Skeleton

end Ownership
