import Ownership.Proofs.Moves.Soundness

/-!
# Refused bodies fail on some path

The other direction: whatever state a walk without refusals leaves a place in, some path leaves it
in that state. So the first refusal of a walk, which is due to the state of a single place, is met
on a path that brings this place into this state. The paths that matter go around a loop at most
twice.
-/

namespace Ownership

open Context

namespace Context

variable {c : Context} {s t : Session} {π ρ : List Event}

lemma Fails.append_right (h : c.Fails π s) (ρ : List Event) : c.Fails (π ++ ρ) s := by
  obtain ⟨before, e, rest, t, a, u, rfl, ht, htries, hfit⟩ := h
  exact ⟨before, e, rest ++ ρ, t, a, u, by simp, ht, htries, hfit⟩

/-- A path fails if it leads to the beginning of one that does. -/
lemma Fails.append_left (ht : c.follow π s = .ok t) (h : c.Fails ρ t) : c.Fails (π ++ ρ) s := by
  obtain ⟨before, e, rest, m, a, u, rfl, hm, htries, hfit⟩ := h
  refine ⟨π ++ before, e, rest, m, a, u, by simp, ?_, htries, hfit⟩
  rw [follow_append, ht]
  exact hm

/-- Whether evaluating the test of a loop moves no place. -/
def TestsMoveNothing (c : Context) (events : List Event) : Prop :=
  ∀ pos test body loc, .test pos test body loc ∈ events → ∀ {s s'},
    c.execute (.test pos test body loc) s = .ok s' → ∀ q, s'.flow.stateOf q = s.flow.stateOf q

lemma TestsMoveNothing.mono {es fs : List Event} (h : c.TestsMoveNothing fs)
    (hsub : ∀ e ∈ es, e ∈ fs) : c.TestsMoveNothing es :=
  fun pos test body loc he => h pos test body loc (hsub _ he)

end Context

namespace Skeleton

variable {c : Context} {s s' m t : Session} {π : List Event} {q : Place} {e : Event}
  {body paths paths' : List Event → Bool → Prop}

/-! ### States that are attained -/

/-- What a path that is covered by a walk brings a place to, the walk brings it to as well. -/
structure Attains (c : Context) (s s' : Session) (π : List Event) (q : Place) : Prop where
  covers : Covers c s s' π false
  attained : Deed.after q (c.deedsOf π) (s.flow.stateOf q) = s'.flow.stateOf q

lemma Attains.append {ρ : List Event} (h : Attains c s m π q) (h' : Attains c m s' ρ q) :
    Attains c s s' (π ++ ρ) q where
  covers := h.covers.append h'.covers
  attained := by
    rw [deedsOf, List.flatMap_append, Deed.after_append]
    change Deed.after q (c.deedsOf ρ) (Deed.after q (c.deedsOf π) (s.flow.stateOf q)) = _
    rw [h.attained, h'.attained]

lemma Attains.of_below {m' : Session} (h : Attains c m m' π q) (hs : s.flow = m.flow)
    (hs' : m'.flow.Below s'.flow) (hq : m'.flow.stateOf q = s'.flow.stateOf q) :
    Attains c s s' π q where
  covers := h.covers.of_below hs hs'
  attained := by rw [hs, h.attained, hq]

variable (hc : c.tracksLoans = true)

include hc

lemma attains_event (h : c.execute e s = .ok s') (hadm : c.Admits e s.flow)
    (hs : s.flow.returned = false) (hclean : s'.Clean) (hret : e.isReturn = false) :
    Attains c s s' [e] q where
  covers := hret ▸ covers_event hc h hadm hs hclean
  attained := by
    obtain ⟨-, hp⟩ := (performs hc e).passes h hadm hclean
    rw [deedsOf, List.flatMap_singleton, (performs hc e).leaves h hp q]

/-- Wherever the place is in the same state and no other is in a larger one, the path leads to such
a session again. -/
lemma Attains.follow (h : Attains c s s' π q) (ht : c.LoansTyped t) (hts : t.Under s)
    (heq : t.flow.stateOf q = s.flow.stateOf q) :
    ∃ t', c.follow π t = .ok t' ∧ c.LoansTyped t' ∧ t'.Under s' ∧
      t'.flow.stateOf q = s'.flow.stateOf q := by
  have hp : t.Passes (c.deedsOf π) := h.covers.passes.of_under hts
  obtain ⟨t', ht', htt'⟩ := follow_completes hc h.covers.ready ht hp
  have hleaves := follow_leaves hc ht' hp
  refine ⟨t', ht', htt', fun q' => ?_, ?_⟩
  · rw [hleaves q']
    exact (Deed.after_mono (hts q')).trans (h.covers.bound rfl q')
  · rw [hleaves q, heq, h.attained]

/-- Whether events lead from the entry of a loop to one of its tests. -/
def LeadsToTest (test : Event) (body : List Event → Bool → Prop) (ρ : List Event) : Prop :=
  ∀ {π r}, Laps test body π r → Laps test body (ρ ++ π) r

/-- The state in which a loop is walked again is attained before the first round or after it. -/
lemma attains_join {test : Event} {s₁ j : Session} (hret : test.isReturn = false)
    (hadm : c.Admits test s.flow) (hs : s.flow.returned = false) (hm : c.execute test s = .ok m)
    (hmclean : m.Clean) (hid : ∀ q x, Deed.after q (c.deeds test) x = x)
    (hbody : s₁.flow.returned = false → ∃ π, body π false ∧ Attains c m s₁ π q)
    (hj : j.flow = m.flow.merge s₁.flow) : ∃ ρ, LeadsToTest test body ρ ∧ Attains c s j ρ q := by
  have hfirst : Attains c s m [test] q := attains_event hc hm hadm hs hmclean hret
  have hmret : m.flow.returned = false := hfirst.covers.goesOn rfl
  have hsm : ∀ q, s.flow.stateOf q = m.flow.stateOf q := by
    intro q
    obtain ⟨-, hp⟩ := (performs hc test).passes hm hadm hmclean
    rw [(performs hc test).leaves hm hp q, hid]
  obtain ⟨hjret, hmj⟩ := Flow.below_merge_left m.flow s₁.flow hmret
  rw [← hj] at hjret hmj
  rcases Flow.merge_attained (hj ▸ hjret) q with ⟨-, hq⟩ | ⟨hs₁ret, hq⟩
  · refine ⟨[], id, ⟨(fun _ he => nomatch he), fun _ => trivial, fun _ => hjret,
      fun _ q' => ?_⟩, ?_⟩
    · exact (hsm q').le.trans (hmj q')
    · rw [hj, ← hq]
      exact hsm q
  · obtain ⟨π, hπ, hatt⟩ := hbody hs₁ret
    refine ⟨test :: π, fun hl => .again hπ hl, ?_⟩
    refine hfirst.append (hatt.of_below rfl ?_ ?_)
    · rw [hj]
      exact Flow.below_merge_right m.flow s₁.flow
    · rw [hj, hq]

/-- A walk without refusals leaves no place in a state that no path leaves it in. -/
theorem Clears.attains {k : Skeleton} (h : Clears c k s s') (hs : s.flow.returned = false)
    (hs' : s'.flow.returned = false) (q : Place) : ∃ π, k.Path π false ∧ Attains c s s' π q := by
  induction h with
  | done s =>
    refine ⟨[], ⟨rfl, rfl⟩, ⟨(fun _ he => nomatch he), fun _ => trivial, fun _ => hs, ?_⟩, rfl⟩
    exact fun _ _ => le_refl _
  | @event e s s' h hadm hclean =>
    have he : e.isReturn = false := by
      have hor := (performs hc e).returned h
      rw [hs', hs, Bool.false_or] at hor
      exact hor.symm
    exact ⟨[e], ⟨rfl, he.symm⟩, attains_event hc h hadm hs hclean he⟩
  | @scope start stop node kind body s m m' s' henter hm _ _ hexit hclean ih =>
    have hm'ret : m'.flow.returned = false := by
      have hor := (performs hc _).returned hexit
      rw [hs', eq_comm, Bool.or_eq_false_iff] at hor
      exact hor.1
    obtain ⟨ρ, hρ, hbody⟩ := ih (returned_execute rfl henter hs) hm'ret
    have hfirst : Attains c s m [.enter start node kind] q :=
      attains_event hc henter (fun p hp => nomatch hp) hs hm rfl
    have hlast : Attains c m' s' [.exit start stop node] q :=
      attains_event hc hexit (fun p hp => nomatch hp) hm'ret hclean rfl
    exact ⟨_, ⟨ρ, hρ, rfl⟩, hfirst.append (hbody.append hlast)⟩
  | noted _ ih =>
    obtain ⟨π, hπ, hatt⟩ := ih hs hs'
    exact ⟨π, hπ, hatt.of_below rfl (.refl _) rfl⟩
  | stop _ _ hret => cases hret.symm.trans hs'
  | seq _ _ hret _ ih ih' =>
    obtain ⟨π, hπ, hfirst⟩ := ih hs hret
    obtain ⟨ρ, hρ, hsecond⟩ := ih' hret hs'
    exact ⟨π ++ ρ, .inr ⟨π, ρ, hπ, hρ, rfl⟩, hfirst.append hsecond⟩
  | fork _ _ _ ih₁ ih₂ =>
    rcases Flow.merge_attained hs' q with ⟨hret₁, hq⟩ | ⟨hret₂, hq⟩
    · obtain ⟨π, hπ, hatt⟩ := ih₁ hs hret₁
      exact ⟨π, .inl hπ, hatt.of_below rfl (Flow.below_merge_left _ _) hq⟩
    · obtain ⟨π, hπ, hatt⟩ := ih₂ hs hret₂
      exact ⟨π, .inr hπ, hatt.of_below rfl (Flow.below_merge_right _ _) hq⟩
  | @loop pos test body loc inner s m s₁ m' s₂ hm hmclean w₁ h₁ hm' hm'clean w₂ h₂ ih₁ ih₂ =>
    have hcovers :
        ∀ {π}, Laps (.test pos test body loc) inner.Path π false → Covers c s _ π false :=
      fun hπ => (Clears.loop hm hmclean w₁ h₁ hm' hm'clean w₂ h₂).covers hc hs hπ
    have hmret : m.flow.returned = false := returned_execute rfl hm hs
    obtain ⟨hjret, hmj⟩ := Flow.below_merge_left m.flow s₁.flow hmret
    have hid := test_changes_nothing hc hm hmclean hmj hm' hm'clean
    -- The state before the second round is attained; the loop ends there or after that round.
    generalize hj : ({ s₁ with flow := _, replay := _ } : Session) = j at hm'
    have hflow : j.flow = m.flow.merge s₁.flow := by rw [← hj]
    rw [← hflow] at hjret hmj hs' hcovers ⊢
    have htest : ∀ f, c.Admits (.test pos test body loc) f := fun f p hp => nomatch hp
    obtain ⟨ρ, hρ, hjoin⟩ := attains_join hc rfl (htest _) hs hm hmclean hid (ih₁ hmret) hflow
    have hlast : ∀ π x, Deed.after q (c.deedsOf (π ++ [.test pos test body loc])) x =
        Deed.after q (c.deedsOf π) x := by
      intro π x
      rw [deedsOf, List.flatMap_append, Deed.after_append, List.flatMap_singleton, hid]
      rfl
    rcases Flow.merge_attained hs' q with ⟨-, hq⟩ | ⟨hret₂, hq⟩
    · refine ⟨ρ ++ [.test pos test body loc], hρ .exit, hcovers (hρ .exit), ?_⟩
      rw [hlast, hjoin.attained]
      exact hq
    · have hagain : Attains c j m' [.test pos test body loc] q :=
        attains_event hc hm' (htest _) hjret hm'clean rfl
      obtain ⟨π, hπ, hbody⟩ := ih₂ (hagain.covers.goesOn rfl) hret₂
      have hround := hρ (.again hπ .exit)
      refine ⟨_, hround, hcovers hround, ?_⟩
      have hsame : ρ ++ .test pos test body loc :: (π ++ [.test pos test body loc]) =
          (ρ ++ ([.test pos test body loc] ++ π)) ++ [.test pos test body loc] := by simp
      rw [hsame, hlast, (hjoin.append (hagain.append hbody)).attained]
      exact hq

/-! ### Refusals -/

/-- Whether a refusal is met again: wherever one place is in the same state and no other is in a
larger one, some path fails. -/
def Betrays (c : Context) (s : Session) (paths : List Event → Bool → Prop) : Prop :=
  ∃ q, ∀ t, c.LoansTyped t → t.Under s → t.flow.stateOf q = s.flow.stateOf q →
    ∃ π r, paths π r ∧ c.Fails π t

/-- A refusal behind a state that is attained is met from the beginning. -/
lemma Betrays.of_attains (h : Betrays c m paths)
    (hatt : ∀ q, ∃ π, Attains c s m π q ∧ ∀ ρ r, paths ρ r → ∃ rest r',
      paths' (π ++ ρ ++ rest) r') :
    Betrays c s paths' := by
  obtain ⟨q, hq⟩ := h
  obtain ⟨π, hπ, hpaths⟩ := hatt q
  refine ⟨q, fun t ht hts heq => ?_⟩
  obtain ⟨t', ht', htt', hts', heq'⟩ := hπ.follow hc ht hts heq
  obtain ⟨ρ, r, hρ, hfails⟩ := hq t' htt' hts' heq'
  obtain ⟨rest, r', hrest⟩ := hpaths ρ r hρ
  exact ⟨_, r', hrest, (hfails.append_left ht').append_right rest⟩

/-- A refused event is refused wherever the place at fault is in the same state. -/
lemma betrays_event (h : c.execute e s = .ok s') (hadm : c.Admits e s.flow) (hs : s.Clean)
    (hn : ¬s'.Clean) : Betrays c s fun π _ => π = [e] := by
  obtain ⟨q, hq⟩ := (performs hc e).refused h hadm hs hn
  refine ⟨q, fun t ht hts heq => ?_⟩
  obtain ⟨a, u, htries, hfit⟩ := hq t ht hts heq
  exact ⟨[e], false, rfl, [], e, [], t, a, u, rfl, rfl, htries, hfit⟩

omit hc in
lemma Betrays.mono (h : Betrays c s paths)
    (hsub : ∀ π r, paths π r → ∃ rest r', paths' (π ++ rest) r') : Betrays c s paths' := by
  obtain ⟨q, hq⟩ := h
  refine ⟨q, fun t ht hts heq => ?_⟩
  obtain ⟨π, r, hπ, hfails⟩ := hq t ht hts heq
  obtain ⟨rest, r', hrest⟩ := hsub π r hπ
  exact ⟨_, r', hrest, hfails.append_right rest⟩

/-- The end of a scope refuses nothing. -/
lemma clean_exit {start stop : Int} {node : Node} (h : c.execute (.exit start stop node) s = .ok s')
    (hs : s.Clean) : s'.Clean := by
  by_contra hn
  obtain ⟨q, hq⟩ := (performs hc _).refused h (fun p hp => nomatch hp) hs hn
  have htyped : c.LoansTyped { s with loans := [] } := fun l hl => nomatch hl
  obtain ⟨a, u, ⟨hstep, -⟩, -⟩ := hq { s with loans := [] } htyped (fun _ => le_refl _) rfl
  cases hstep

omit hc in
lemma laps_of_round (test : Event) {r : Bool} (h : body π r) :
    ∃ rest r', Laps test body (test :: (π ++ rest)) r' := by
  cases r with
  | true => exact ⟨[], true, by simpa using .leave h⟩
  | false => exact ⟨[test], false, .again h .exit⟩

/-- Whether the first refusal of each walk of a skeleton is met again on some path. -/
def Exposes (c : Context) (k : Skeleton) : Prop :=
  ∀ ⦃s s' : Session⦄, k.walk c s = .ok s' → s.flow.returned = false → k.Admits c s.flow →
    s.Clean → ¬s'.Clean → Betrays c s k.Path

lemma Exposes.scope {k : Skeleton} {start stop : Int} {node : Node} {kind : ScopeKind}
    (hk : Exposes c k) : Exposes c (scope start stop node kind k) := by
  intro s s' h hret hadm hs hn
  obtain ⟨m, hm, h⟩ := bind_eq_ok.mp h
  obtain ⟨m', hm', h⟩ := bind_eq_ok.mp h
  have hmclean : m.Clean := (performs hc _).clean hm hs fun _ => trivial
  have hbody := hk hm' (returned_execute rfl hm hret) (admits_scope hc hm hadm) hmclean
    fun hclean => hn (clean_exit hc h hclean)
  refine hbody.of_attains hc fun q => ⟨[.enter start node kind], ?_, fun ρ r hρ => ?_⟩
  · exact attains_event hc hm (fun p hp => nomatch hp) hret hmclean rfl
  · exact ⟨if r then [] else [.exit start stop node], r, ρ, hρ, by simp⟩

lemma Exposes.seq (hr : c.replays = 1) {k l : Skeleton} (hk : Exposes c k) (hl : Exposes c l)
    (hgk : k.Guarded c)
    (hread : ∀ p ∈ l.guards c, ∃ e, k = event e ∧ c.deeds e = [.access (.read p)]) :
    Exposes c (seq k l) := by
  intro s s' h hret hadm hs hn
  obtain ⟨m, hm, h⟩ := bind_eq_ok.mp h
  by_cases hmclean : m.Clean
  · have hmret : m.flow.returned = false := by
      by_contra hne
      rw [if_pos (by simpa using hne)] at h
      exact hn (Except.ok.inj h ▸ hmclean)
    rw [if_neg (by simp [hmret])] at h
    have hsecond := hl h hmret (admits_seq hc hread hm hadm hmclean) hmclean hn
    refine hsecond.of_attains hc fun q => ?_
    obtain ⟨π, hπ, hatt⟩ := (clears_of_walk hc hr k hgk hm hadm hmclean).attains hc hret hmret q
    exact ⟨π, hatt, fun ρ r hρ => ⟨[], r, .inr ⟨π, ρ, hπ, hρ, by simp⟩⟩⟩
  · refine (hk hm hret hadm hs hmclean).mono fun π r hπ => ?_
    cases r with
    | true => exact ⟨[], true, .inl ⟨by simpa using hπ, rfl⟩⟩
    | false =>
      obtain ⟨ρ, r, hρ⟩ := l.exists_path
      exact ⟨ρ, r, .inr ⟨π, ρ, hπ, hρ, rfl⟩⟩

omit hc in
lemma Exposes.fork {k l : Skeleton} (hk : Exposes c k) (hl : Exposes c l) :
    Exposes c (fork k l) := by
  intro s s' h hret hadm hs hn
  obtain ⟨s₁, h₁, h⟩ := bind_eq_ok.mp h
  obtain ⟨s₂, h₂, h⟩ := bind_eq_ok.mp h
  cases h
  by_cases hs₁clean : s₁.Clean
  · have hsecond := hl h₂ hret (fun p hp => hadm p (List.mem_append_right _ hp)) hs₁clean hn
    exact .mono (s := s) hsecond fun π r hπ => ⟨[], r, .inr (by simpa using hπ)⟩
  · have hfirst := hk h₁ hret (fun p hp => hadm p (List.mem_append_left _ hp)) hs hs₁clean
    exact hfirst.mono fun π r hπ => ⟨[], r, .inl (by simpa using hπ)⟩

/-- The first refusal in a loop is that of its test or of its body, before the second round or in
it. -/
lemma Exposes.loop (hr : c.replays = 1) {pos : Int} {test : Expr} {b : Block} {loc : Span}
    {inner : Skeleton} (hi : Exposes c inner) (hgi : inner.Guarded c) (hnone : inner.guards c = [])
    (hpure : ∀ {s s'}, c.execute (.test pos test b loc) s = .ok s' →
      ∀ q, s'.flow.stateOf q = s.flow.stateOf q) : Exposes c (loop pos test b loc inner) := by
  intro s s' h hret _ hs hn
  have htest : ∀ f, c.Admits (.test pos test b loc) f := fun f p hp => nomatch hp
  obtain ⟨m, s₁, m', s₂, hm, h₁, hm', h₂, rfl⟩ := walk_loop hr h
  by_cases hmclean : m.Clean
  swap
  · refine (betrays_event hc hm (htest _) hs hmclean).mono ?_
    rintro π r rfl
    exact ⟨[], false, .exit⟩
  have hfirst : ∀ q, Attains c s m [.test pos test b loc] q :=
    fun q => attains_event hc hm (htest _) hret hmclean rfl
  have hmret : m.flow.returned = false := (hfirst default).covers.goesOn rfl
  have hid := test_changes_nothing hc hm hmclean (fun q => (hpure hm q).le) hm hmclean
  by_cases hs₁clean : s₁.Clean
  swap
  · -- The first round of the body is refused.
    have hround := hi h₁ hmret (admits_nil hnone _) hmclean hs₁clean
    exact hround.of_attains hc fun q => ⟨_, hfirst q, fun ρ r hρ => laps_of_round _ hρ⟩
  generalize hj : ({ s₁ with flow := _, replay := _ } : Session) = j at hm'
  have hflow : j.flow = m.flow.merge s₁.flow := by rw [← hj]
  have hjclean : j.Clean := hj ▸ hs₁clean
  have hjret : j.flow.returned = false := hflow ▸ (Flow.below_merge_left m.flow s₁.flow hmret).1
  have hclears := clears_of_walk hc hr inner hgi h₁ (admits_nil hnone _) hs₁clean
  have hjoin : ∀ q, ∃ ρ, LeadsToTest (.test pos test b loc) inner.Path ρ ∧ Attains c s j ρ q :=
    fun q => attains_join hc rfl (htest _) hret hm hmclean hid
      (fun h₁ret => hclears.attains hc hmret h₁ret q) hflow
  by_cases hm'clean : m'.Clean
  swap
  · -- The test is refused before the second round.
    refine (betrays_event hc hm' (htest _) hjclean hm'clean).of_attains hc fun q => ?_
    obtain ⟨ρ, hρ, hatt⟩ := hjoin q
    refine ⟨ρ, hatt, ?_⟩
    rintro π r rfl
    exact ⟨[], false, by simpa [Path] using hρ .exit⟩
  -- The second round of the body is refused.
  have hm'ret : m'.flow.returned = false := returned_execute rfl hm' hjret
  refine (hi h₂ hm'ret (admits_nil hnone _) hm'clean hn).of_attains hc fun q => ?_
  obtain ⟨ρ, hρ, hatt⟩ := hjoin q
  refine ⟨ρ ++ [.test pos test b loc], ?_, fun π r hπ => ?_⟩
  · exact hatt.append (attains_event hc hm' (htest _) hjret hm'clean rfl)
  · obtain ⟨rest, r', hround⟩ := laps_of_round (.test pos test b loc) hπ
    exact ⟨rest, r', by simpa [Path] using hρ hround⟩

/-- The first refusal of a walk is met again on some path. -/
theorem walk_betrays (hr : c.replays = 1) (k : Skeleton) (hk : k.Guarded c)
    (hpure : c.TestsMoveNothing k.events) : Exposes c k := by
  induction k with
  | done =>
    intro s s' h _ _ hs hn
    cases h
    exact absurd hs hn
  | event e =>
    intro s s' h _ hadm hs hn
    refine (betrays_event hc h hadm hs hn).mono ?_
    rintro π r rfl
    exact ⟨[], e.isReturn, rfl, rfl⟩
  | scope start stop node kind body ih =>
    exact .scope hc (ih hk (hpure.mono (by simp +contextual [events])))
  | noted pos k ih =>
    intro s s' h hret hadm hs hn
    obtain ⟨m, hm, h⟩ := bind_eq_ok.mp h
    cases h
    exact ih hk hpure hm hret hadm hs hn
  | seq k l ihk ihl =>
    have hpk : c.TestsMoveNothing k.events := hpure.mono (by simp +contextual [events])
    have hpl : c.TestsMoveNothing l.events := hpure.mono (by simp +contextual [events])
    exact .seq hc hr (ihk hk.1 hpk) (ihl hk.2.1 hpl) hk.1 hk.2.2
  | fork k l ihk ihl =>
    have hpk : c.TestsMoveNothing k.events := hpure.mono (by simp +contextual [events])
    have hpl : c.TestsMoveNothing l.events := hpure.mono (by simp +contextual [events])
    exact .fork (ihk hk.1 hpk) (ihl hk.2 hpl)
  | loop pos test body loc inner ih =>
    have hpi : c.TestsMoveNothing inner.events := hpure.mono (by simp +contextual [events])
    exact .loop hc hr (ih hk.1 hpi) hk.1 hk.2 (hpure pos test body loc List.mem_cons_self)

end Skeleton

namespace Context

/-! ### Functions -/

/-- Where the tests of loops move nothing, the walk of a function refuses a use exactly if some path
through its body has an access that meets a place in a state that does not permit it. -/
theorem refused_iff_path_fails {program : Program} {f : Function} {options : Options} {c : Context}
    {s : Session} (hbuild : build program f options = .ok c) (hrun : c.run = .ok s)
    (hpure : c.TestsMoveNothing f.events) :
    ∃ s₀, c.initial = .ok s₀ ∧ (¬s.Clean ↔ ∃ π, f.Path π ∧ c.Fails π s₀) := by
  obtain ⟨hc, hr, hf⟩ := build_fields hbuild
  obtain ⟨s₀, s₁, h₀, h₁, hexit⟩ := run_cases hrun
  obtain ⟨-, hret, hnone₀⟩ := initial_fields h₀
  refine ⟨s₀, h₀, fun hn => ?_, ?_⟩
  · have hs₁ : ¬s₁.Clean := fun hclean => hn (Skeleton.clean_exit hc hexit hclean)
    have hs₀ : s₀.Clean := .of_findings_eq_nil hnone₀
    obtain ⟨hguarded, hnone⟩ :=
      Stmt.guarded_skeletonAll c c.function.bodyStart c.function.body.stmts
    have hpure' : c.TestsMoveNothing c.function.skeleton.events := by
      rw [Function.events_skeleton, hf]
      exact hpure.mono (by simp +contextual [Function.events])
    obtain ⟨q, hq⟩ := Skeleton.walk_betrays hc hr _ hguarded hpure' h₁ hret
      (Skeleton.admits_nil hnone _) hs₀ hs₁
    obtain ⟨π, r, hπ, hfails⟩ := hq s₀ (loansTyped_initial h₀) (fun _ => le_refl _) rfl
    exact ⟨π, ⟨r, hf ▸ hπ⟩, hfails⟩
  · rintro ⟨π, hπ, hfails⟩ hclean
    obtain ⟨s₀', h₀', -, hpass⟩ := passes_path hbuild hrun hclean hπ
    obtain rfl := ok_inj h₀ h₀'
    exact not_fails_of_passes hc hpass hfails

end Context

/-- Whether a node is no loop, or a loop whose test is a variable. -/
def Node.testsVariable : Node → Bool
  | stmt (.loop (.var _ _) _ _) => true
  | stmt (.loop _ _ _) => false
  | _ => true

/-- Reading a variable moves nothing. -/
lemma Context.testsMoveNothing_of_variables {c : Context} {events : List Event}
    (h : ∀ e ∈ events, e.node.testsVariable = true) : c.TestsMoveNothing events := by
  intro pos test body loc he s s' hs' q
  have hvar : (Node.stmt (.loop test body loc)).testsVariable = true := h _ he
  cases test with
  | var name at' =>
    obtain ⟨k, hk, hks'⟩ := bind_eq_ok.mp hs'
    cases hks'
    simp only [Expr.readRequests, Expr.inspectOr] at hk
    cases hp : (Expr.var name at').place?
        (c.evalScope (Event.test pos (.var name at') body loc).pos loc).meaning with
    | none =>
      rw [hp] at hk
      simp only [Expr.requests, Expr.takeOr, hp, performAll] at hk
      rw [← Except.ok.inj hk]
      rfl
    | some p =>
      rw [hp] at hk
      cases hk
      exact congrArg (·.stateOf q) flow_read
  | _ => cases hvar

def Function.spill : Function where
  name := "spill"
  params := [⟨"c", some ⟨2⟩, false, .unknown⟩, ⟨"x", some ⟨1⟩, false, .unknown⟩]
  body := .mk [.loop (.var "c" .unknown)
    (.mk [.declare "y" none (.var "x" .unknown) false .unknown] .unknown) .unknown] .unknown

namespace Context

/-- The text that is taken in one round is missing in the next. -/
theorem refused_iff_path_fails_spill : ∃ c s s₀, build { types := .texts } .spill {} = .ok c ∧
    c.run = .ok s ∧ c.TestsMoveNothing Function.spill.events ∧ ¬s.Clean ∧ c.initial = .ok s₀ ∧
    ∃ π, Function.spill.Path π ∧ c.Fails π s₀ := by
  have hok : ((build { types := .texts } .spill {} >>= run).toOption.any
      fun s => decide ¬s.Clean) = true := by decide +kernel
  obtain ⟨s, hs, hn⟩ := Fault.exists_ok hok
  obtain ⟨c, hbuild, hrun⟩ := bind_eq_ok.mp hs
  have hpure : c.TestsMoveNothing Function.spill.events :=
    testsMoveNothing_of_variables (by decide +kernel)
  obtain ⟨s₀, h₀, hiff⟩ := refused_iff_path_fails hbuild hrun hpure
  have hn' := of_decide_eq_true hn
  exact ⟨c, s, s₀, hbuild, hrun, hpure, hn', h₀, hiff.mp hn'⟩

end Context

end Ownership
