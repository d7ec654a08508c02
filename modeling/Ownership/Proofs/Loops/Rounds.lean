import Ownership.Proofs.Loops.Steps
import Ownership.Proofs.Moves.Precision

/-!
# Further walks of a loop

A loop is walked twice. Seen from one place, a round either leaves the state alone or puts the place
into a fixed state, so the merge in which the second walk begins is the merge in which every further
walk begins. Further walks therefore refuse nothing and object to no write. They may still meet new
loans: a reference that is handed from one holder to the next gets one step further with every walk.
Only if the second walk leaves the loans as the first one left them, all further walks repeat it.
-/

namespace Ownership

open Context

lemma Fault.of_all {α : Type} {x : Except Fault α} {test : α → Bool} {a : α}
    (h : x.toOption.all test = true) (hx : x = .ok a) : test a = true := by
  subst hx
  exact h

namespace Context

/-! ### The number of walks -/

/-- The context in which a loop is walked again a number of times. -/
def withReplays (c : Context) (n : Nat) : Context := { c with replays := n }

section

variable (c : Context) (n : Nat) (pos : Int) (span : Span) (s : Session)

lemma performAll_withReplays (rs : List Request) :
    (c.withReplays n).performAll pos s rs = c.performAll pos s rs := by
  induction rs generalizing s with
  | nil => rfl
  | cons r rest ih =>
    rw [performAll_cons, performAll_cons]
    refine bind_congr fun k => ?_
    rw [ih]

lemma escape_withReplays (ids : List Nat) :
    (c.withReplays n).escape pos span ids s = c.escape pos span ids s := by
  induction ids generalizing s with
  | nil => rfl
  | cons id rest ih =>
    unfold escape
    split
    · exact ih s
    · refine bind_congr fun r => ?_
      cases r with
      | some _ => exact ih s
      | none => exact ih _

lemma checkDangling_withReplays (scope : Scope) (ls : List Loan) :
    (c.withReplays n).checkDangling scope ls s = c.checkDangling scope ls s := by
  induction ls generalizing s with
  | nil => rfl
  | cons l rest ih =>
    unfold checkDangling
    refine bind_congr fun dangles => ?_
    cases dangles with
    | true => exact ih _
    | false => exact ih s

lemma takesAny_withReplays (types : List Ty) :
    (c.withReplays n).takesAny types = c.takesAny types := by
  induction types with
  | nil => rfl
  | cons ty rest ih =>
    unfold takesAny
    rw [ih]
    rfl

/-- How often loops are walked again matters to no event. -/
lemma execute_withReplays (e : Event) : (c.withReplays n).execute e s = c.execute e s := by
  have hall := performAll_withReplays c n
  unfold execute
  cases e.kind with
  | enter => rfl
  | exit =>
    refine bind_congr fun scope => ?_
    simp only [exitScope, checkDangling_withReplays]
    rfl
  | step =>
    cases e.node with
    | function => rfl
    | param p => rfl
    | arm arm sel =>
      cases sel with
      | none => rfl
      | some sel =>
        simp only [executeNode, bindArm, takesAny_withReplays]
        rfl
    | stmt stmt =>
      cases stmt with
      | declare name type value mutable loc =>
        simp only [executeNode, declare, evaluate, hall]
        rfl
      | assign target value loc =>
        simp only [executeNode, assign, evaluate, hall]
        rfl
      | evaluate value loc =>
        simp only [executeNode, evaluate, hall]
        rfl
      | ret value loc =>
        simp only [executeNode, giveBack, evaluate, hall, escape_withReplays]
        rfl
      | branch test yes no loc | loop test body loc =>
        simp only [executeNode, inspect, hall]
        rfl
      | select scrutinee arms type loc =>
        simp only [executeNode, scrutinize, evaluate, hall]
        rfl
      | foreign kind => rfl
      | block b => rfl

end

section

variable {c : Context} {same : Prop} {e : Event} {s s' t : Session} (hc : c.tracksLoans = true)
  (h : c.execute e s = .ok s') (hq : s'.findings = [])

include hc h hq

lemma Like.execute_withReplays (hlike : c.Like same s t) (n : Nat) :
    ∃ t', (c.withReplays n).execute e t = .ok t' ∧ c.Like same s' t' := by
  rw [Context.execute_withReplays]
  exact hlike.execute hc h hq

lemma quiet_of_execute : s.findings = [] := List.prefix_nil.mp (hq ▸ (performs hc e).grows h)

end

end Context

namespace Skeleton

variable {c : Context} {s s' t m s₁ m' s₂ : Session} {k l inner : Skeleton} {pos : Int}
  {test : Expr} {body : Block} {loc : Span}

lemma quiet_of_walk (hc : c.tracksLoans = true) (hr : c.replays = 1) (h : k.walk c s = .ok s')
    (hq : s'.findings = []) : s.findings = [] := List.prefix_nil.mp (hq ▸ walk_grows hc hr k h)

/-! ### Loops whose loans settle -/

/-- Whether the second walk of every loop on the way leaves the loans as the first one left them. -/
def settles (c : Context) : Skeleton → Session → Bool
  | done, _ | event _, _ => true
  | scope start _ node kind body, s =>
    (c.execute (.enter start node kind) s).toOption.all (body.settles c)
  | noted _ k, s => k.settles c s
  | seq k l, s =>
    k.settles c s && (k.walk c s).toOption.all fun m => m.flow.returned || l.settles c m
  | fork k l, s =>
    k.settles c s && (k.walk c s).toOption.all fun m => l.settles c (m.withFlow s.flow)
  | loop pos test body loc inner, s =>
    (c.execute (.test pos test body loc) s).toOption.all fun m =>
      inner.settles c m && (inner.walk c m).toOption.all fun s₁ =>
        (c.execute (.test pos test body loc)
          { s₁ with flow := m.flow.merge s₁.flow, replay := s₁.replay + 1 }).toOption.all fun m' =>
            inner.settles c m' && (inner.walk c m').toOption.all fun s₂ =>
              decide (s₂.loans = s₁.loans)

lemma settles_seq (h : (seq k l).settles c s = true) (hm : k.walk c s = .ok m) :
    k.settles c s = true ∧ (m.flow.returned = false → l.settles c m = true) := by
  rw [settles, Bool.and_eq_true] at h
  have hl := Fault.of_all h.2 hm
  refine ⟨h.1, fun hret => ?_⟩
  rwa [hret, Bool.false_or] at hl

lemma settles_fork (h : (fork k l).settles c s = true) (hm : k.walk c s = .ok m) :
    k.settles c s = true ∧ l.settles c (m.withFlow s.flow) = true := by
  rw [settles, Bool.and_eq_true] at h
  have hl := Fault.of_all h.2 hm
  exact ⟨h.1, hl⟩

/-- The loans have settled after the first of the two walks. -/
lemma settles_loop (h : (loop pos test body loc inner).settles c s = true)
    (hm : c.execute (.test pos test body loc) s = .ok m) (h₁ : inner.walk c m = .ok s₁)
    (hm' : c.execute (.test pos test body loc)
      { s₁ with flow := m.flow.merge s₁.flow, replay := s₁.replay + 1 } = .ok m')
    (h₂ : inner.walk c m' = .ok s₂) :
    inner.settles c m = true ∧ inner.settles c m' = true ∧ s₂.loans = s₁.loans := by
  rw [settles] at h
  have hfirst := Fault.of_all h hm
  rw [Bool.and_eq_true] at hfirst
  have hjoin := Fault.of_all hfirst.2 h₁
  have hsecond := Fault.of_all hjoin hm'
  rw [Bool.and_eq_true] at hsecond
  have hloans := Fault.of_all hsecond.2 h₂
  exact ⟨hfirst.1, hsecond.1, of_decide_eq_true hloans⟩

/-- The second walk of a loop adds nothing to the merge in which it begins. -/
lemma alike_join (hc : c.tracksLoans = true) {j : Session}
    (hm : c.execute (.test pos test body loc) s = .ok m) (hmclean : m.Clean)
    (h₁ : Clears c inner m s₁)
    (hj : j.flow = m.flow.merge s₁.flow) (hm' : c.execute (.test pos test body loc) j = .ok m')
    (hm'clean : m'.Clean) (h₂ : Clears c inner m' s₂) (hs : s.flow.returned = false) :
    j.flow.Alike (j.flow.merge s₂.flow) := by
  have he := performs hc (.test pos test body loc)
  have hmret : m.flow.returned = false := returned_execute rfl hm hs
  obtain ⟨hjret, hmj⟩ := Flow.below_merge_left m.flow s₁.flow hmret
  rw [← hj] at hjret hmj
  have hm'ret : m'.flow.returned = false := returned_execute rfl hm' hjret
  have hid := test_changes_nothing hc hm hmclean hmj hm' hm'clean
  cases hret : s₂.flow.returned with
  | true =>
    rw [Flow.merge_of_returned_right hjret hret]
    exact .refl _
  | false =>
    refine ⟨by simp [hjret], fun q => ?_⟩
    rw [Flow.stateOf_merge hjret hret]
    -- Some path leads the place to its state after the second walk. From the merge it cannot lead
    -- beyond the merge, because it did not lead there in the first walk.
    obtain ⟨π, hπ, hatt⟩ := h₂.attains hc hm'ret hret q
    have hfirst := h₁.covers hc hmret hπ
    have hbound : Deed.after q (c.deedsOf π) (m.flow.stateOf q) ≤ j.flow.stateOf q := by
      rw [hj]
      exact (hfirst.bound rfl q).trans
        ((Flow.below_merge_right m.flow s₁.flow (hfirst.goesOn rfl)).2 q)
    have hm'j : m'.flow.stateOf q = j.flow.stateOf q := by
      obtain ⟨-, hp⟩ := he.passes hm' (fun p hp => nomatch hp) hm'clean
      rw [he.leaves hm' hp q, hid]
    refine max_eq_left ?_
    rw [← hatt.attained, hm'j]
    exact Deed.after_le_of_le le_rfl hbound

section Further

variable {same : Prop} {again : Session → Except Fault Session} {j s₂ : Session}

/-- Walking a loop again and again repeats the second walk. The span is that of the test, whatever
the walk before left. -/
lemma replayLoop_like (hagain : ∀ t, c.Like same j { t with span := j.span } →
      ∃ t', again t = .ok t' ∧ c.Like same s₂ t')
    (hjoin : j.flow.Alike (j.flow.merge s₂.flow)) (hloans : same → s₂.loans = j.loans)
    (hdang : same → j.dangling = []) (n : Nat) {g : Flow} {r : Nat} (hg : j.flow.Alike g)
    (ht : c.Like same j { t with flow := g, span := j.span }) :
    ∃ t', replayLoop again (n + 1) g t = .ok t' ∧
      c.Like same { s₂ with flow := j.flow.merge s₂.flow, replay := r } t' := by
  induction n generalizing g t with
  | zero =>
    obtain ⟨t', ht', hlike⟩ := hagain { t with flow := g, replay := t.replay + 1 }
      (ht.congr ht.flow ht.span ⟨rfl, rfl⟩ rfl ⟨rfl, rfl⟩)
    refine ⟨_, by rw [replayLoop, ht']; rfl, ?_⟩
    exact hlike.congr (hg.merge hlike.flow) hlike.span ⟨rfl, rfl⟩ rfl ⟨rfl, rfl⟩
  | succ n ih =>
    obtain ⟨t', ht', hlike⟩ := hagain { t with flow := g, replay := t.replay + 1 }
      (ht.congr ht.flow ht.span ⟨rfl, rfl⟩ rfl ⟨rfl, rfl⟩)
    have hg' : j.flow.Alike (g.merge t'.flow) := hjoin.trans (hg.merge hlike.flow)
    rw [replayLoop, ht']
    refine ih hg' ⟨hg', rfl, hlike.typed, hlike.onlyLoans, fun hsame => ?_, hlike.findings,
      fun hsame => ?_⟩
    · exact (hlike.loans hsame).trans (hloans hsame)
    · exact ⟨hdang hsame, (hlike.dangling hsame).2⟩

end Further

/-! ### Walks that find nothing -/

/-- Whether each walk of a skeleton that finds nothing is repeated by one that walks its loops more
often. -/
def Repeats (c : Context) (same : Prop) (n : Nat) (k : Skeleton) : Prop :=
  ∀ ⦃s s' t : Session⦄, k.walk c s = .ok s' → s.flow.returned = false → k.Admits c s.flow →
    s'.findings = [] → (same → k.settles c s = true) → c.Like same s t →
    ∃ t', k.walk (c.withReplays (n + 1)) t = .ok t' ∧ c.Like same s' t'

section Repeats

variable {same : Prop} {n : Nat}

lemma Repeats.noted (hk : Repeats c same n k) : Repeats c same n (noted pos k) := by
  intro s s' t h hs hadm hq hsettles hlike
  obtain ⟨m, hm, h⟩ := bind_eq_ok.mp h
  cases h
  obtain ⟨u, hu, hmu⟩ := hk hm hs hadm hq hsettles hlike
  exact ⟨u.snapshot pos, bind_eq_ok.mpr ⟨u, hu, rfl⟩,
    hmu.congr hmu.flow hmu.span ⟨rfl, rfl⟩ rfl ⟨rfl, rfl⟩⟩

variable (hc : c.tracksLoans = true)

include hc

lemma Repeats.event (e : Event) : Repeats c same n (event e) := fun _ _ _ h _ _ hq _ hlike =>
  hlike.execute_withReplays hc h hq _

variable (hr : c.replays = 1)

include hr

lemma Repeats.scope {start stop : Int} {node : Node} {kind : ScopeKind} (hk : Repeats c same n k) :
    Repeats c same n (scope start stop node kind k) := by
  intro s s' t h hs hadm hq hsettles hlike
  obtain ⟨m, hm, h⟩ := bind_eq_ok.mp h
  obtain ⟨m', hm', h⟩ := bind_eq_ok.mp h
  have hq' := quiet_of_execute hc h hq
  obtain ⟨u, hu, hmu⟩ := hlike.execute_withReplays hc hm (quiet_of_walk hc hr hm' hq') (n + 1)
  obtain ⟨v, hv, hmv⟩ := hk hm' (returned_execute rfl hm hs) (admits_scope hc hm hadm) hq'
    (fun hsame => Fault.of_all (hsettles hsame) hm) hmu
  obtain ⟨t', ht', hlike'⟩ := hmv.execute_withReplays hc h hq (n + 1)
  exact ⟨t', bind_eq_ok.mpr ⟨u, hu, bind_eq_ok.mpr ⟨v, hv, ht'⟩⟩, hlike'⟩

/-- The second part begins with what the first one has left, unless that has returned. -/
lemma Repeats.seq (hk : Repeats c same n k) (hl : Repeats c same n l)
    (hread : ∀ p ∈ l.guards c, ∃ e, k = .event e ∧ c.deeds e = [.access (.read p)]) :
    Repeats c same n (seq k l) := by
  intro s s' t h hs hadm hq hsettles hlike
  obtain ⟨m, hm, h⟩ := bind_eq_ok.mp h
  have hsplit := fun hsame => settles_seq (hsettles hsame) hm
  cases hret : m.flow.returned with
  | true =>
    rw [hret, if_pos rfl] at h
    cases h
    obtain ⟨u, hu, hmu⟩ := hk hm hs hadm hq (fun hsame => (hsplit hsame).1) hlike
    refine ⟨u, bind_eq_ok.mpr ⟨u, hu, ?_⟩, hmu⟩
    rw [hmu.flow.returned, hret]
    rfl
  | false =>
    rw [hret, if_neg Bool.false_ne_true] at h
    have hqm := quiet_of_walk hc hr h hq
    obtain ⟨u, hu, hmu⟩ := hk hm hs hadm hqm (fun hsame => (hsplit hsame).1) hlike
    obtain ⟨t', ht', hlike'⟩ := hl h hret
      (admits_seq hc hread hm hadm (.of_findings_eq_nil hqm)) hq
      (fun hsame => (hsplit hsame).2 hret) hmu
    refine ⟨t', bind_eq_ok.mpr ⟨u, hu, ?_⟩, hlike'⟩
    rw [hmu.flow.returned, hret]
    exact ht'

lemma Repeats.fork (hk : Repeats c same n k) (hl : Repeats c same n l) :
    Repeats c same n (fork k l) := by
  intro s s' t h hs hadm hq hsettles hlike
  obtain ⟨s₁, h₁, h⟩ := bind_eq_ok.mp h
  obtain ⟨s₂, h₂, h⟩ := bind_eq_ok.mp h
  cases h
  have hq₂ : s₂.findings = [] := hq
  have hq₁ : (s₁.withFlow s.flow).findings = [] := quiet_of_walk hc hr h₂ hq₂
  have hsplit := fun hsame => settles_fork (hsettles hsame) h₁
  obtain ⟨t₁, ht₁, hlike₁⟩ := hk h₁ hs (fun p hp => hadm p (List.mem_append_left _ hp)) hq₁
    (fun hsame => (hsplit hsame).1) hlike
  obtain ⟨t₂, ht₂, hlike₂⟩ := hl h₂ hs (fun p hp => hadm p (List.mem_append_right _ hp)) hq₂
    (fun hsame => (hsplit hsame).2) (hlike₁.withFlow hlike.flow)
  exact ⟨_, bind_eq_ok.mpr ⟨t₁, ht₁, bind_eq_ok.mpr ⟨t₂, ht₂, rfl⟩⟩,
    hlike₂.withFlow (hlike₁.flow.merge hlike₂.flow)⟩

/-- The first round of the longer walk is like the first round of the shorter one, and each further
round is like the second: it starts from the same merge, and from the same loans if they have
settled. -/
lemma Repeats.loop (hi : Repeats c same n inner) (hgi : inner.Guarded c)
    (hnone : inner.guards c = []) : Repeats c same n (loop pos test body loc inner) := by
  intro s s' t h hs _ hq hsettles hlike
  obtain ⟨m, s₁, m', s₂, hm, h₁, hm', h₂, rfl⟩ := walk_loop hr h
  have hsplit := fun hsame => settles_loop (hsettles hsame) hm h₁ hm' h₂
  generalize hj : ({ s₁ with flow := _, replay := _ } : Session) = j at hm'
  have hflow : j.flow = m.flow.merge s₁.flow := by rw [← hj]
  have hq₂ : s₂.findings = [] := hq
  have hqm' := quiet_of_walk hc hr h₂ hq₂
  have hq₁ : s₁.findings = [] := by
    have hqj := quiet_of_execute hc hm' hqm'
    rw [← hj] at hqj
    exact hqj
  have hqm := quiet_of_walk hc hr h₁ hq₁
  have hmret : m.flow.returned = false := returned_execute rfl hm hs
  have hjret : j.flow.returned = false := hflow ▸ (Flow.below_merge_left m.flow s₁.flow hmret).1
  have hclears : ∀ {u u'}, inner.walk c u = .ok u' → u'.findings = [] → Clears c inner u u' :=
    fun hu hu' => clears_of_walk hc hr inner hgi hu (admits_nil hnone _) (.of_findings_eq_nil hu')
  have hjoin := alike_join hc hm (.of_findings_eq_nil hqm) (hclears h₁ hq₁) hflow hm'
    (.of_findings_eq_nil hqm') (hclears h₂ hq₂) hs
  obtain ⟨u, hu, hmu⟩ := hlike.execute_withReplays hc hm hqm (n + 1)
  obtain ⟨t₁, ht₁, hlike₁⟩ := hi h₁ hmret (admits_nil hnone _) hq₁
    (fun hsame => (hsplit hsame).1) hmu
  have hagain : ∀ v, c.Like same j { v with span := j.span } → ∃ v',
      ((c.withReplays (n + 1)).execute (.test pos test body loc) v >>=
        inner.walk (c.withReplays (n + 1))) = .ok v' ∧ c.Like same s₂ v' := by
    intro v hv
    obtain ⟨w, hw, hmw⟩ := hv.execute_withReplays hc hm' hqm' (n + 1)
    obtain ⟨v', hv', hlike'⟩ := hi h₂ (returned_execute rfl hm' hjret) (admits_nil hnone _) hq₂
      (fun hsame => (hsplit hsame).2.1) hmw
    exact ⟨v', bind_eq_ok.mpr ⟨w, hw, hv'⟩, hlike'⟩
  have hstart : c.Like same j { t₁ with flow := u.flow.merge t₁.flow, span := j.span } := by
    refine hlike₁.congr ?_ rfl ⟨by rw [← hj], rfl⟩ rfl ⟨by rw [← hj], rfl⟩
    rw [hflow]
    exact hmu.flow.merge hlike₁.flow
  obtain ⟨t', ht', hlike'⟩ := replayLoop_like hagain hjoin
    (fun hsame => by rw [(hsplit hsame).2.2, ← hj])
    (fun hsame => (hstart.dangling hsame).1) n (r := s₁.replay) hstart.flow hstart
  rw [hflow] at hlike'
  exact ⟨t', bind_eq_ok.mpr ⟨u, hu, bind_eq_ok.mpr ⟨t₁, ht₁, ht'⟩⟩, hlike'⟩

/-- Longer walks of a body repeat its walk if that finds nothing. -/
theorem walk_like (k : Skeleton) (hk : k.Guarded c) : Repeats c same n k := by
  induction k with
  | done =>
    intro s s' t h _ _ _ _ hlike
    cases h
    exact ⟨t, rfl, hlike⟩
  | event e => exact .event hc e
  | scope start stop node kind body ih => exact .scope hc hr (ih hk)
  | noted pos k ih => exact .noted (ih hk)
  | seq k l ihk ihl => exact .seq hc hr (ihk hk.1) (ihl hk.2.1) hk.2.2
  | fork k l ihk ihl => exact .fork hc hr (ihk hk.1) (ihl hk.2)
  | loop pos test body loc inner ih => exact .loop hc hr (ih hk.1) hk.1 hk.2

end Repeats

end Skeleton

namespace Context

variable {c : Context} {s : Session}

/-! ### Functions -/

/-- Whether the second walk of every loop of the function leaves the loans as the first one left
them. -/
def settles (c : Context) : Bool := c.initial.toOption.all (c.function.skeleton.settles c)

/-- A walk begins with nothing found and nothing lent. -/
lemma like_initial (h : c.initial = .ok s) (same : Prop) : c.Like same s s := by
  have hfind : s.findings = [] := (initial_fields h).2.2
  have hdang : s.dangling = [] := by
    obtain ⟨root, -, rfl⟩ := map_eq_ok.mp h
    unfold start
    rw [foldl_keeps Session.dangling]
    exact fun _ _ => rfl
  refine ⟨.refl _, rfl, loansTyped_initial h, ?_, fun _ => rfl, fun _ => hfind,
    fun _ => ⟨hdang, hdang⟩⟩
  intro x hx
  rw [hfind] at hx
  cases hx

/-- If the walk of a function finds nothing, then a walk that goes through its loops more often
finds nothing but conflicts with loans: no use is refused and no immutable binding is written. If
moreover the second walk of every loop leaves the loans as the first one left them, then it finds
nothing at all and ends with the same loans. -/
theorem further_walks_find_only_loans {program : Program} {f : Function} {options : Options}
    {c : Context} {s : Session} (hbuild : build program f options = .ok c) (hrun : c.run = .ok s)
    (hnone : s.findings = []) {n : Nat} (hn : 1 ≤ n) :
    ∃ s', (c.withReplays n).run = .ok s' ∧ s'.OnlyLoans ∧
      (c.settles = true → s'.findings = [] ∧ s'.loans = s.loans) := by
  obtain ⟨hc, hr, -⟩ := build_fields hbuild
  obtain ⟨s₀, s₁, h₀, h₁, hexit⟩ := run_cases hrun
  obtain ⟨k, rfl⟩ : ∃ k, n = k + 1 := ⟨n - 1, by omega⟩
  obtain ⟨hguarded, hguards⟩ :=
    Stmt.guarded_skeletonAll c c.function.bodyStart c.function.body.stmts
  have hquiet := quiet_of_execute hc hexit hnone
  obtain ⟨t₁, ht₁, hlike₁⟩ := Skeleton.walk_like hc hr _ hguarded h₁ (initial_fields h₀).2.1
    (Skeleton.admits_nil hguards _) hquiet (fun hsettles => Fault.of_all hsettles h₀)
    (like_initial h₀ (c.settles = true))
  obtain ⟨s', hs', hlike⟩ := hlike₁.execute_withReplays hc hexit hnone (k + 1)
  refine ⟨s', ?_, hlike.onlyLoans, fun hsettles => ⟨hlike.findings hsettles, hlike.loans hsettles⟩⟩
  rw [run_eq (c := c.withReplays (k + 1))]
  exact bind_eq_ok.mpr ⟨s₀, h₀, bind_eq_ok.mpr ⟨t₁, ht₁, hs'⟩⟩

end Context

/-! ### Loops that hand references on -/

/-- Borrows a text in each round of a loop and reads the reference there and behind the loop. -/
def Function.repoint : Function where
  name := "repoint"
  params := [⟨"k", some ⟨2⟩, false, .unknown⟩, ⟨"d", some ⟨1⟩, false, .unknown⟩,
    ⟨"s", some ⟨1⟩, true, .unknown⟩]
  body := .mk [.declare "a" none (.borrow (.var "d" .unknown) false .unknown) true .unknown,
    .loop (.var "k" .unknown) (.mk [.evaluate (.var "a" .unknown) .unknown,
      .assign (.var "a" .unknown) (.borrow (.var "s" .unknown) false .unknown) .unknown] .unknown)
      .unknown,
    .evaluate (.var "a" .unknown) .unknown] .unknown

/-- Hands a reference to a text on from `a` to `b` and from `b` to `c`, one step in each round of a
loop. Behind the loop the text is written, and then `c` is read. -/
def Function.handOn : Function where
  name := "handOn"
  params := [⟨"k", some ⟨2⟩, false, .unknown⟩, ⟨"d", some ⟨1⟩, false, .unknown⟩,
    ⟨"s", some ⟨1⟩, true, .unknown⟩]
  body := .mk [.declare "a" none (.borrow (.var "d" .unknown) false .unknown) true .unknown,
    .declare "b" none (.borrow (.var "d" .unknown) false .unknown) true .unknown,
    .declare "c" none (.borrow (.var "d" .unknown) false .unknown) true .unknown,
    .loop (.var "k" .unknown) (.mk [.assign (.var "c" .unknown) (.var "b" .unknown) .unknown,
      .assign (.var "b" .unknown) (.var "a" .unknown) .unknown,
      .assign (.var "a" .unknown) (.borrow (.var "s" .unknown) false .unknown) .unknown] .unknown)
      .unknown,
    .assign (.var "s" .unknown) (.literal (.text "t") .unknown) .unknown,
    .evaluate (.var "c" .unknown) .unknown] .unknown

namespace Context

/-- A loop whose loans settle in its first round, walked three times. -/
theorem further_walks_find_only_loans_repoint : ∃ c s s',
    build { types := .texts } .repoint {} = .ok c ∧ c.run = .ok s ∧ s.findings = [] ∧
    s.loans.length = 2 ∧ c.settles = true ∧ (c.withReplays 2).run = .ok s' ∧ s'.OnlyLoans ∧
    s'.findings = [] ∧ s'.loans = s.loans := by
  have hok : ((build { types := .texts } .repoint {} >>= fun c => (c, ·) <$> c.run).toOption.any
      fun (c, s) => decide (s.findings = [] ∧ s.loans.length = 2 ∧ c.settles = true)) = true := by
    decide +kernel
  obtain ⟨⟨c, s⟩, hcs, htest⟩ := Fault.exists_ok hok
  obtain ⟨c, hbuild, hcs⟩ := bind_eq_ok.mp hcs
  obtain ⟨s, hrun, hpair⟩ := map_eq_ok.mp hcs
  obtain ⟨rfl, rfl⟩ := Prod.mk.inj hpair
  obtain ⟨hnone, hlen, hsettles⟩ := of_decide_eq_true htest
  obtain ⟨s', hs', honly, hsame⟩ :=
    further_walks_find_only_loans hbuild hrun hnone (n := 2) (by decide)
  obtain ⟨hnone', hloans⟩ := hsame hsettles
  exact ⟨c, s, s', hbuild, hrun, hnone, hlen, hsettles, hs', honly, hnone', hloans⟩

/-- The reference reaches its third holder in the third walk only, which finds the write behind the
loop that two walks accept. -/
theorem third_walk_finds_write_handOn : ∃ c s s', build { types := .texts } .handOn {} = .ok c ∧
    c.run = .ok s ∧ s.findings = [] ∧ c.settles = false ∧ (c.withReplays 2).run = .ok s' ∧
    s'.findings.map (·.violation.code) = ["E_WRITE_WHILE_BORROWED"] := by
  have hok : ((build { types := .texts } .handOn {} >>= fun c => c.run >>= fun s =>
      (c, s, ·) <$> (c.withReplays 2).run).toOption.any fun (c, s, s') =>
        decide (s.findings = [] ∧ c.settles = false ∧
          s'.findings.map (·.violation.code) = ["E_WRITE_WHILE_BORROWED"])) = true := by
    decide +kernel
  obtain ⟨⟨c, s, s'⟩, hall, htest⟩ := Fault.exists_ok hok
  obtain ⟨c, hbuild, hall⟩ := bind_eq_ok.mp hall
  obtain ⟨s, hrun, hall⟩ := bind_eq_ok.mp hall
  obtain ⟨s', hrun', heq⟩ := map_eq_ok.mp hall
  obtain ⟨rfl, rfl, rfl⟩ : _ ∧ _ ∧ _ := by simpa using heq
  obtain ⟨hnone, hsettles, hcodes⟩ := of_decide_eq_true htest
  exact ⟨c, s, s', hbuild, hrun, hnone, hsettles, hrun', hcodes⟩

end Context

end Ownership
