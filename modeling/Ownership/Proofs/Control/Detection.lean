import Ownership.Proofs.Moves.Destruction

/-!
# The order of detection

A walk reports and destroys at the position of the event that it executes. Outside of the rounds in
which a loop is walked again it visits events in the order of the text. So what it detects there
comes in that order as well: the positions never go back.
-/

namespace Ownership

open Context Fault List

/-! ### The reports of a step -/

namespace Session

variable {s m s' : Session} {pos : Int}

/-- Whether all that has been reported since is found at a position. -/
def Reports (pos : Int) (s s' : Session) : Prop :=
  ∃ more, s'.findings = s.findings ++ more ∧ ∀ f ∈ more, f.pos = pos

lemma Reports.of_eq (h : s'.findings = s.findings) : s.Reports pos s' :=
  ⟨[], by simp [h], fun _ hf => nomatch hf⟩

lemma Reports.refl (s : Session) : s.Reports pos s := .of_eq rfl

lemma Reports.trans (h : s.Reports pos m) (h' : m.Reports pos s') : s.Reports pos s' := by
  obtain ⟨more, hm, hpos⟩ := h
  obtain ⟨more', hs', hpos'⟩ := h'
  refine ⟨more ++ more', by rw [hs', hm, append_assoc], fun f hf => ?_⟩
  exact (mem_append.mp hf).elim (hpos f) (hpos' f)

lemma reports_report {f : Finding} (hf : f.pos = pos) : s.Reports pos (s.report f) := by
  unfold report
  split
  · exact .refl s
  · exact ⟨[f], rfl, fun g hg => mem_singleton.mp hg ▸ hf⟩

lemma Notes.reports (h : s.Notes pos s') : s.Reports pos s' := by
  cases h with
  | silent => exact .refl s
  | report hpos _ => exact reports_report hpos

end Session

namespace Context

variable {c : Context} {s s' : Session} {p : Place} {pos : Int} {span : Span}
  {k : List Nat × Session} {viaReturn : Bool}

/-! ### Accesses -/

lemma reports_useFinding {r : Refusal} :
    s.Reports pos (s.report (s.flow.useFinding p pos span r)) := by
  cases r <;> exact Session.reports_report rfl

lemma reports_read : s.Reports pos (c.read p pos span s) := by
  unfold read
  split
  · exact reports_useFinding
  · exact notes_noteRead.reports

lemma reports_move : s.Reports pos (c.move p pos span s) := by
  unfold move
  split
  · exact reports_useFinding
  · exact notes_noteMove.reports.trans (.of_eq rfl)

lemma reports_write : s.Reports pos (c.write p pos span s) := by
  unfold write
  split
  · exact reports_useFinding
  · exact (notes_noteMutability.reports.trans notes_noteWrite.reports).trans (.of_eq rfl)

/-- A borrow reports at its own position. -/
lemma reports_lend {kind : LoanKind} (h : c.lend p kind pos span s = .ok k) :
    s.Reports pos k.2 := by
  unfold lend at h
  split at h
  · rw [← Except.ok.inj h]
    exact .refl s
  · split at h
    · rename_i r _
      rw [← Except.ok.inj h]
      cases r <;> exact Session.reports_report rfl
    · obtain ⟨behind, -, h⟩ := bind_eq_ok.mp h
      split at h
      · rw [← Except.ok.inj h]
        exact Session.reports_report rfl
      · split at h
        · rw [← Except.ok.inj h]
          exact Session.reports_report rfl
        · rw [← Except.ok.inj h]
          refine .of_eq ?_
          rcases snd_grantLoan c p kind pos span behind s with hk | hk
          · rw [hk]
          · rw [hk]
            rfl

lemma reports_access {a : Access} (h : c.access pos span s a = .ok k) : s.Reports pos k.2 := by
  cases a with
  | read p =>
    cases h
    exact reports_read
  | move p =>
    cases h
    exact reports_move
  | write p =>
    cases h
    exact reports_write
  | lend p kind => exact reports_lend h

/-! ### Events -/

lemma reports_reportDangling {l : Loan} : s.Reports pos (c.reportDangling l pos span viaReturn s) :=
  Session.Reports.trans (.of_eq rfl) (Session.reports_report rfl)

lemma Dangled.reports (h : c.Dangled pos viaReturn s s') : s.Reports pos s' := by
  induction h with
  | refl s => exact .refl s
  | report _ _ _ ih => exact reports_reportDangling.trans ih

lemma reports_finishScope {scope : Scope} (h : c.finishScope scope s = .ok s') :
    s.Reports scope.stop s' := by
  unfold finishScope at h
  split at h
  · rw [← Except.ok.inj h]
    exact .refl s
  · exact .trans (.of_eq (Session.findings_destroy ..))
      (dangled_checkDangling h).reports

lemma Course.reports {named : Binding → Prop} {as : List (Access × Session)} {held held' : List Nat}
    (h : c.Course pos named as held s held' s') : s.Reports pos s' := by
  induction h with
  | refl held s | carry held s _ => exact .refl s
  | begin | mark | attach => exact .of_eq rfl
  | access held h _ => exact reports_access h
  | dangle held s l span => exact reports_reportDangling
  | append _ _ ih ih' => exact ih.trans ih'

variable {e : Event} (hnests : c.tree.Nests c.function.events) (he : e ∈ c.function.events)

include hnests he

/-- An event reports at its own position. -/
lemma reports_execute (h : c.execute e s = .ok s') : s.Reports e.pos s' := by
  cases hk : e.kind with
  | enter =>
    obtain ⟨scope, -, rfl⟩ := execute_enter hk h
    exact .of_eq rfl
  | exit =>
    obtain ⟨S, -, hstop, m, hm, rfl⟩ := exists_finished hnests he hk h
    rw [← hstop]
    exact (reports_finishScope hm).trans (.of_eq rfl)
  | step =>
    obtain ⟨as, held, m, hcourse, -, rfl⟩ := runs_execute hk h
    split
    · refine hcourse.reports.trans (.of_eq ?_)
      exact foldl_keeps Session.findings
        (fun s (S : Scope) => s.findings_destroy e.pos c.tree S.id) m.scopes m
    · exact hcourse.reports

/-- The findings that the visit of an event reports. -/
def reported (c : Context) (v : Event × Session) : List Finding :=
  seen (c.execute v.1 v.2) fun m => m.findings.drop v.2.findings.length

lemma findings_execute (h : c.execute e s = .ok s') :
    s'.findings = s.findings ++ c.reported (e, s) := by
  obtain ⟨more, hmore, -⟩ := reports_execute hnests he h
  rw [reported, h, seen_ok, hmore, drop_left]

lemma pos_of_mem_reported {f : Finding} (hf : f ∈ c.reported (e, s)) : f.pos = e.pos := by
  unfold reported at hf
  cases h : c.execute e s with
  | error fault =>
    rw [h] at hf
    cases hf
  | ok s' =>
    obtain ⟨more, hmore, hpos⟩ := reports_execute hnests he h
    rw [h, seen_ok, hmore, drop_left] at hf
    exact hpos f hf

end Context

/-! ### Rounds -/

lemma Fault.mem_seen {α β : Type} {x : Except Fault α} {f : α → List β} {b : β} :
    b ∈ seen x f ↔ ∃ a, x = .ok a ∧ b ∈ f a := by
  cases x with
  | error fault => simp [seen]
  | ok a => simp

namespace Skeleton

variable {c : Context} {again : Session → Except Fault Session} {s s' : Session}
  {es es' : List Event} {vs : List (Event × Session)}

lemma replay_replayLoop (n : Nat) {joined : Flow} (h : replayLoop again n joined s = .ok s') :
    s'.replay = s.replay := by
  induction n generalizing joined s with
  | zero =>
    cases h
    rfl
  | succ n ih =>
    obtain ⟨m, -, h⟩ := bind_eq_ok.mp h
    have hrest := ih h
    exact hrest

/-- A walk ends in the round in which it began. -/
lemma replay_walk (k : Skeleton) (h : k.walk c s = .ok s') : s'.replay = s.replay := by
  induction k generalizing s s' with
  | done =>
    cases h
    rfl
  | event e => exact replay_execute h
  | scope start stop node kind body ih =>
    obtain ⟨m, hm, h⟩ := bind_eq_ok.mp h
    obtain ⟨m', hm', h⟩ := bind_eq_ok.mp h
    rw [replay_execute h, ih hm', replay_execute hm]
  | noted pos k ih =>
    obtain ⟨m, hm, h⟩ := bind_eq_ok.mp h
    cases h
    have hk := ih hm
    exact hk
  | seq k l ihk ihl =>
    obtain ⟨m, hm, h⟩ := bind_eq_ok.mp h
    split at h
    · rw [← Except.ok.inj h, ihk hm]
    · rw [ihl h, ihk hm]
  | fork k l ihk ihl =>
    obtain ⟨s₁, h₁, h⟩ := bind_eq_ok.mp h
    obtain ⟨s₂, h₂, h⟩ := bind_eq_ok.mp h
    cases h
    have hfirst := ihk h₁
    have hsecond := ihl h₂
    exact hsecond.trans hfirst
  | loop pos test body loc inner ih =>
    obtain ⟨m, hm, h⟩ := bind_eq_ok.mp h
    obtain ⟨s₁, h₁, h⟩ := bind_eq_ok.mp h
    rw [replay_replayLoop c.replays h, ih h₁, replay_execute hm]

/-- What can be said about a visit on a walk through some events that begins in a session: it is
made in the same round or a later one, and if there are no loops it is the same one. -/
structure Passes (es : List Event) (s : Session) (v : Event × Session) : Prop where
  mem : v.1 ∈ es
  le : s.replay ≤ v.2.replay
  eq : (∀ pos test body loc, Event.test pos test body loc ∉ es) → v.2.replay = s.replay

lemma Passes.start {e : Event} (he : e ∈ es) (s : Session) : Passes es s (e, s) :=
  ⟨he, le_rfl, fun _ => rfl⟩

lemma Passes.mono {m : Session} {v : Event × Session} (h : Passes es m v) (hm : m.replay = s.replay)
    (hes : es ⊆ es') : Passes es' s v where
  mem := hes h.mem
  le := hm ▸ h.le
  eq honce := (h.eq fun pos test body loc he => honce pos test body loc (hes he)).trans hm

/-- Whatever is visited while a loop is walked again is visited in a later round. -/
lemma revisits_later {see : Session → List (Event × Session)}
    (h : ∀ s, ∀ v ∈ see s, v.1 ∈ es ∧ s.replay ≤ v.2.replay) (n : Nat) (joined : Flow)
    (s : Session) :
    ∀ v ∈ revisits again see n joined s, v.1 ∈ es ∧ s.replay < v.2.replay := by
  induction n generalizing joined s with
  | zero => exact fun v hv => nomatch hv
  | succ n ih =>
    intro v hv
    rcases mem_append.mp hv with hv | hv
    · exact h _ v hv
    · obtain ⟨s', -, hv⟩ := mem_seen.mp hv
      have hrest := ih _ _ v hv
      exact hrest

lemma round_passes {inner : Skeleton} (h : ∀ s, ∀ v ∈ inner.visits c s, Passes inner.events s v)
    (e : Event) (s : Session) : ∀ v ∈ (e, s) :: seen (c.execute e s) (inner.visits c),
      v.1 ∈ e :: inner.events ∧ s.replay ≤ v.2.replay := by
  intro v hv
  rcases mem_cons.mp hv with rfl | hv
  · exact ⟨mem_cons_self, le_rfl⟩
  · obtain ⟨m, hm, hv⟩ := mem_seen.mp hv
    rw [← replay_execute hm]
    exact ⟨mem_cons_of_mem _ (h m v hv).mem, (h m v hv).le⟩

/-- A walk visits events of its body, in its own round or a later one. -/
lemma visits_pass (k : Skeleton) (s : Session) : ∀ v ∈ k.visits c s, Passes k.events s v := by
  induction k generalizing s with
  | done => exact fun v hv => nomatch hv
  | event e =>
    intro v hv
    rw [mem_singleton.mp hv]
    exact .start mem_cons_self s
  | scope start stop node kind body ih =>
    intro v hv
    rcases mem_cons.mp hv with rfl | hv
    · exact .start mem_cons_self s
    · obtain ⟨m, hm, hv⟩ := mem_seen.mp hv
      have hround := replay_execute hm
      rcases mem_append.mp hv with hv | hv
      · refine (ih m v hv).mono hround fun e he => ?_
        exact mem_cons_of_mem _ (mem_append_left _ he)
      · obtain ⟨m', hm', hv⟩ := mem_seen.mp hv
        rw [mem_singleton.mp hv]
        refine (Passes.start ?_ m').mono ((replay_walk body hm').trans hround) (List.Subset.refl _)
        exact mem_cons_of_mem _ (mem_append_right _ mem_cons_self)
  | noted pos k ih => exact ih s
  | seq k l ihk ihl =>
    intro v hv
    rcases mem_append.mp hv with hv | hv
    · exact (ihk s v hv).mono rfl (subset_append_left _ _)
    · obtain ⟨m, hm, hv⟩ := mem_seen.mp hv
      split at hv
      · cases hv
      · exact (ihl m v hv).mono (replay_walk k hm) (subset_append_right _ _)
  | fork k l ihk ihl =>
    intro v hv
    rcases mem_append.mp hv with hv | hv
    · exact (ihk s v hv).mono rfl (subset_append_left _ _)
    · obtain ⟨s₁, h₁, hv⟩ := mem_seen.mp hv
      have hfirst := replay_walk k h₁
      exact (ihl _ v hv).mono hfirst (subset_append_right _ _)
  | loop pos test body loc inner ih =>
    -- The test is an event of the loop, so only the first two parts are left to show.
    suffices hall : ∀ v ∈ (loop pos test body loc inner).visits c s,
        v.1 ∈ Event.test pos test body loc :: inner.events ∧ s.replay ≤ v.2.replay from
      fun v hv => ⟨(hall v hv).1, (hall v hv).2,
        fun honce => (honce pos test body loc mem_cons_self).elim⟩
    intro v hv
    rcases mem_cons.mp hv with rfl | hv
    · exact ⟨mem_cons_self, le_rfl⟩
    · obtain ⟨m, hm, hv⟩ := mem_seen.mp hv
      rw [← replay_execute hm]
      rcases mem_append.mp hv with hv | hv
      · exact ⟨mem_cons_of_mem _ (ih m v hv).mem, (ih m v hv).le⟩
      · obtain ⟨s₁, h₁, hv⟩ := mem_seen.mp hv
        rw [← replay_walk inner h₁]
        exact (revisits_later (round_passes ih _) c.replays _ s₁ v hv).imp_right le_of_lt

/-! ### The order of visits -/

/-- The visits during which no loop is walked again. -/
def firstVisits (vs : List (Event × Session)) : List (Event × Session) := vs.filter (·.2.replay = 0)

lemma firstVisits_append (vs ws : List (Event × Session)) :
    firstVisits (vs ++ ws) = firstVisits vs ++ firstVisits ws := filter_append ..

/-- Whether the first visits are to some events in their order. -/
def Ordered (vs : List (Event × Session)) (es : List Event) : Prop :=
  ((firstVisits vs).map Prod.fst).Sublist es

lemma Ordered.append {ws : List (Event × Session)} (h : Ordered vs es) (h' : Ordered ws es') :
    Ordered (vs ++ ws) (es ++ es') := by
  rw [Ordered, firstVisits_append, map_append]
  exact .append h h'

lemma Ordered.cons {vs : List (Event × Session)} {es : List Event} (h : Ordered vs es) (e : Event)
    (s : Session) : Ordered ((e, s) :: vs) (e :: es) := by
  have hhead : Ordered [(e, s)] [e] := filter_sublist.map Prod.fst
  exact hhead.append h

lemma Ordered.seen {α : Type} {x : Except Fault α} {see : α → List (Event × Session)}
    (h : ∀ a, x = .ok a → Ordered (see a) es) : Ordered (seen x see) es := by
  cases x with
  | error fault => exact nil_sublist es
  | ok a => exact h a rfl

lemma Ordered.of_later (h : ∀ v ∈ vs, 0 < v.2.replay) : Ordered vs [] := by
  have hnone : firstVisits vs = [] := by
    rw [firstVisits, filter_eq_nil_iff]
    intro v hv h0
    have := h v hv
    simp only [decide_eq_true_eq] at h0
    omega
  rw [Ordered, hnone]
  exact .refl _

/-- Outside of the rounds in which a loop is walked again, a walk visits events in the order of the
text. -/
theorem visits_ordered_events (k : Skeleton) (hs : s.replay = 0) :
    Ordered (k.visits c s) k.events := by
  induction k generalizing s with
  | done => exact .refl _
  | event e => exact .cons (List.Sublist.refl _) e s
  | scope start stop node kind body ih =>
    refine .cons (.seen fun m hm => ?_) _ s
    refine (ih ((replay_execute hm).trans hs)).append (.seen fun m' _ => ?_)
    exact .cons (List.Sublist.refl _) _ m'
  | noted pos k ih => exact ih hs
  | seq k l ihk ihl =>
    refine (ihk hs).append (.seen fun m hm => ?_)
    split
    · exact nil_sublist _
    · exact ihl ((replay_walk k hm).trans hs)
  | fork k l ihk ihl =>
    exact (ihk hs).append (.seen fun s₁ h₁ => ihl ((replay_walk k h₁).trans hs))
  | loop pos test body loc inner ih =>
    refine .cons (.seen fun m hm => ?_) _ s
    have hinner := ih ((replay_execute hm).trans hs)
    rw [← append_nil inner.events]
    refine hinner.append (.seen fun s₁ _ => .of_later fun v hv => ?_)
    have hlater := (revisits_later (round_passes (visits_pass inner) _) c.replays _ s₁ v hv).2
    omega

lemma firstVisits_eq_self (h : ∀ v ∈ vs, v.2.replay = 0) : firstVisits vs = vs :=
  filter_eq_self.mpr fun v hv => decide_eq_true (h v hv)

/-- What first visits add, each at the position of its event, comes in the order of the text. -/
lemma Ordered.pairwise_flatMap {β : Type} {step : Event × Session → List β} {posOf : β → Int}
    (h : Ordered vs es) (hes : es.Pairwise fun e e' => e.pos < e'.pos)
    (hstep : ∀ v ∈ vs, ∀ b ∈ step v, posOf b = v.1.pos) :
    ((firstVisits vs).flatMap step).Pairwise fun b b' => posOf b ≤ posOf b' := by
  have hmem : ∀ v ∈ firstVisits vs, v ∈ vs := fun v hv => (mem_filter.mp hv).1
  have hsorted : ((firstVisits vs).map Prod.fst).Pairwise fun e e' => e.pos < e'.pos :=
    hes.sublist h
  rw [pairwise_map] at hsorted
  rw [List.pairwise_flatMap]
  constructor
  · intro v hv
    refine pairwise_of_forall_mem_list fun b hb b' hb' => ?_
    rw [hstep v (hmem v hv) b hb, hstep v (hmem v hv) b' hb']
  · refine hsorted.imp_of_mem fun hv hw hlt b hb b' hb' => ?_
    rw [hstep _ (hmem _ hv) b hb, hstep _ (hmem _ hw) b' hb']
    exact hlt.le

end Skeleton

/-! ### Functions -/

lemma Function.whole_events_sublist (f : Function) : f.whole.events.Sublist f.events := by
  refine .cons _ ?_
  rw [append_assoc, ← f.events_skeleton]
  exact sublist_append_right _ _

namespace Context

variable {c : Context} {s : Session}

/-- What the walk of a function visits, up to the end of the function. -/
def visits (c : Context) : List (Event × Session) :=
  seen c.initial fun s => c.function.skeleton.visits c s ++
    seen (c.function.skeleton.walk c s) fun m => [(.exit 0 c.function.stop .function, m)]

lemma visits_pass (c : Context) :
    ∀ v ∈ c.visits, ∃ s, c.initial = .ok s ∧ Skeleton.Passes c.function.whole.events s v := by
  intro v hv
  obtain ⟨s, h₀, hv⟩ := mem_seen.mp hv
  refine ⟨s, h₀, ?_⟩
  rcases mem_append.mp hv with hv | hv
  · exact (Skeleton.visits_pass _ s v hv).mono rfl (subset_append_left _ _)
  · obtain ⟨m, hm, hv⟩ := mem_seen.mp hv
    rw [mem_singleton.mp hv]
    refine (Skeleton.Passes.start ?_ m).mono (Skeleton.replay_walk _ hm) (List.Subset.refl _)
    exact mem_append_right _ mem_cons_self

lemma visits_ordered (c : Context) : Skeleton.Ordered c.visits c.function.whole.events := by
  refine .seen fun s h₀ => ?_
  refine (Skeleton.visits_ordered_events _ (replay_initial h₀)).append (.seen fun m _ => ?_)
  exact .cons (List.Sublist.refl _) _ m

/-- What the visits add to a list that begins empty is what a run adds to it. -/
lemma gathered_run {β : Type} {φ : Session → List β} {step : Event × Session → List β}
    (hφ : ∀ s f n t, φ { s with flow := f, replay := n, trace := t } = φ s)
    (hstep : ∀ e ∈ c.function.events, ∀ {s s'}, c.execute e s = .ok s' → φ s' = φ s ++ step (e, s))
    (hnil : ∀ root, φ (c.start root) = []) (h : c.run = .ok s) : φ s = c.visits.flatMap step := by
  obtain ⟨s₀, s₁, h₀, h₁, hexit⟩ := run_cases h
  obtain ⟨root, -, rfl⟩ := map_eq_ok.mp h₀
  have hwhole : ∀ e ∈ c.function.whole.events, e ∈ c.function.events :=
    fun e he => Function.mem_events_of_whole he
  have hend := hstep _ (hwhole _ (mem_append_right _ mem_cons_self)) hexit
  have hbody := Skeleton.gathered_walk hφ c.function.skeleton
    (fun e he => hstep e (hwhole e (mem_append_left _ he))) h₁
  rw [hnil, nil_append] at hbody
  rw [hend, hbody, visits, h₀, seen_ok, h₁, seen_ok, flatMap_append,
    flatMap_singleton]

lemma findings_run (hnests : c.tree.Nests c.function.events) (h : c.run = .ok s) :
    s.findings = c.visits.flatMap c.reported := by
  refine gathered_run (fun _ _ _ _ => rfl) (fun e he _ _ h => findings_execute hnests he h) ?_ h
  intro root
  unfold start
  rw [foldl_keeps Session.findings]
  exact fun _ _ => rfl

lemma drops_run (hnests : c.tree.Nests c.function.events) (h : c.run = .ok s) :
    s.drops = c.visits.flatMap c.recorded := by
  refine gathered_run (fun _ _ _ _ => rfl) (fun e he _ _ h => drops_execute hnests he h) ?_ h
  intro root
  unfold start
  rw [foldl_keeps Session.drops]
  exact fun _ _ => rfl

/-- Detection follows the order of the text. The findings and the destructions of a function are
those that its visits record, each at the position of the event visited. Outside of the rounds in
which a loop is walked again, events are visited in the order of the stream, and the positions of
findings and of destructions never go back. In a function without loops that is all there is, so
the whole list of findings, as it is before findings are sorted, is in order, and so is that of the
destructions. -/
theorem detection_in_order {program : Program} {f : Function} {options : Options}
    (hbuild : build program f options = .ok c) :
    (∀ v ∈ c.visits, v.1 ∈ f.events ∧ (∀ x ∈ c.reported v, x.pos = v.1.pos) ∧
      ∀ d ∈ c.recorded v, d.pos = v.1.pos) ∧
    (∀ s, c.run = .ok s →
      s.findings = c.visits.flatMap c.reported ∧ s.drops = c.visits.flatMap c.recorded) ∧
    ((Skeleton.firstVisits c.visits).map Prod.fst).Sublist f.events ∧
    ((Skeleton.firstVisits c.visits).flatMap c.reported).Pairwise (fun x y => x.pos ≤ y.pos) ∧
    ((Skeleton.firstVisits c.visits).flatMap c.recorded).Pairwise (fun d d' => d.pos ≤ d'.pos) ∧
    ((∀ pos test body loc, Event.test pos test body loc ∉ f.events) →
      Skeleton.firstVisits c.visits = c.visits ∧
      ∀ s, c.run = .ok s → s.findings.Pairwise (fun x y => x.pos ≤ y.pos) ∧
        s.drops.Pairwise fun d d' => d.pos ≤ d'.pos) := by
  obtain ⟨-, -, rfl⟩ := build_fields hbuild
  have hnests := nests_of_build hbuild
  have hmem : ∀ v ∈ c.visits, v.1 ∈ c.function.events := by
    intro v hv
    obtain ⟨s, -, hpass⟩ := c.visits_pass v hv
    exact Function.mem_events_of_whole hpass.mem
  have hreported : ∀ v ∈ c.visits, ∀ x ∈ c.reported v, x.pos = v.1.pos :=
    fun v hv x hx => pos_of_mem_reported hnests (hmem v hv) hx
  have hrecorded : ∀ v ∈ c.visits, ∀ d ∈ c.recorded v, d.pos = v.1.pos :=
    fun v hv d hd => pos_of_mem_recorded hnests (hmem v hv) hd
  have hpositions := (Function.spans_whole c.function).pairwise_events
  have hfindings := c.visits_ordered.pairwise_flatMap hpositions hreported
  have hdrops := c.visits_ordered.pairwise_flatMap hpositions hrecorded
  refine ⟨fun v hv => ⟨hmem v hv, hreported v hv, hrecorded v hv⟩,
    fun s hs => ⟨findings_run hnests hs, drops_run hnests hs⟩,
    List.Sublist.trans c.visits_ordered c.function.whole_events_sublist, hfindings, hdrops,
    fun honce => ?_⟩
  have hall : Skeleton.firstVisits c.visits = c.visits := by
    refine Skeleton.firstVisits_eq_self fun v hv => ?_
    obtain ⟨s, h₀, hpass⟩ := c.visits_pass v hv
    rw [hpass.eq fun pos test body loc he => honce pos test body loc
      (Function.mem_events_of_whole he),
      replay_initial h₀]
  refine ⟨hall, fun s hs => ?_⟩
  rw [findings_run hnests hs, drops_run hnests hs, ← hall]
  exact ⟨hfindings, hdrops⟩

end Context

/-- Reads `u`, which has no value, behind a move of `d`, in a loop. -/
def Function.backward : Function where
  name := "backward"
  params := [⟨"k", some ⟨2⟩, false, .unknown⟩, ⟨"d", some ⟨1⟩, false, .unknown⟩]
  body := .mk [.declare "u" (some ⟨1⟩) .absent false .unknown,
    .loop (.var "k" .unknown) (.mk [.declare "t" none (.var "d" .unknown) false .unknown,
      .declare "w" none (.var "u" .unknown) false .unknown] .unknown) .unknown] .unknown

namespace Context

/-- A use after a move is found only when the loop is walked again, after the read that stands
behind it: not all visits are first ones. Without loops the destructions at the ends of scopes come
in order. -/
theorem detection_in_order_backward :
    (∃ c s, build { types := .texts } .backward {} = .ok c ∧ c.run = .ok s ∧
      s.findings.map (·.pos) = [7, 6] ∧ s.findings = c.visits.flatMap c.reported ∧
      ((Skeleton.firstVisits c.visits).flatMap c.reported).Pairwise (fun x y => x.pos ≤ y.pos) ∧
      Skeleton.firstVisits c.visits ≠ c.visits) ∧
    ∃ c s, build .pairs .halving {} = .ok c ∧ c.run = .ok s ∧ s.drops.map
      (·.pos) = [7, 7, 7, 12, 15, 16, 16] ∧
      s.drops.Pairwise fun d d' => d.pos ≤ d'.pos := by
  constructor
  · have hok : ((build { types := .texts } .backward {} >>= fun c => (c, ·) <$> c.run).toOption.any
        fun r => decide (r.2.findings.map (·.pos) = [7, 6])) = true := by
      decide +kernel
    obtain ⟨c, s, hbuild, hrun, htest⟩ := exists_run_of_test hok
    have hfound := of_decide_eq_true htest
    obtain ⟨-, hall, -, hsorted, -⟩ := detection_in_order hbuild
    have hfindings := (hall s hrun).1
    refine ⟨c, s, hbuild, hrun, hfound, hfindings, hsorted, fun hfirst => ?_⟩
    rw [hfirst, ← hfindings] at hsorted
    have hpositions := pairwise_map.mpr hsorted
    rw [hfound] at hpositions
    revert hpositions
    decide
  · have hok : ((build .pairs .halving {} >>= fun c => (c, ·) <$> c.run).toOption.any
        fun r => decide (r.2.drops.map (·.pos) = [7, 7, 7, 12, 15, 16, 16])) = true := by
      decide +kernel
    obtain ⟨c, s, hbuild, hrun, htest⟩ := exists_run_of_test hok
    have honce : ∀ pos test body loc, Event.test pos test body loc ∉ Function.halving.events := by
      have hall : ∀ e ∈ Function.halving.events, e.node.kindName ≠ "While" := by decide +kernel
      exact fun pos test body loc he => hall _ he rfl
    obtain ⟨-, -, -, -, -, hloopless⟩ := detection_in_order hbuild
    exact ⟨c, s, hbuild, hrun, of_decide_eq_true htest, ((hloopless honce).2 s hrun).2⟩

end Context

end Ownership
