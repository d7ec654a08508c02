import Ownership.Proofs.Checker.Progress
import Ownership.Proofs.Control.Log
import Ownership.Proofs.Loans.Twins
import Ownership.Proofs.Moves.Bases

/-!
# Ownership states

All along a walk, on paths that have returned as on others, an ownership state is in order. Move
sites are recorded for the moved places and for no others. A place with a record is based on a
binding that the walk has declared and whose scope is open. Only whole bindings are uninitialized,
and what is moved does not lie behind a reference. A finding that cites a move therefore cites one
that the walk has made.
-/

namespace Ownership

open List

/-! ### Records -/

namespace Flow

/-- Whether move sites are recorded for the moved places, records have a property `R` and move sites
a property `S`. -/
structure Coherent (R : Place → PlaceState → Prop) (S : Place → MoveSite → Prop) (f : Flow) :
    Prop where
  sited : ∀ q, (∃ site, f.sites.get? q = some site) ↔ f.states.get? q = some .moved
  states : ∀ q st, f.states.get? q = some st → R q st
  sites : ∀ q site, f.sites.get? q = some site → S q site

lemma mergeStates_eq_moved_iff {a b : Option PlaceState} :
    mergeStates a b = some .moved ↔ a = some .moved ∨ b = some .moved := by
  rcases a with - | a
  · rcases b with - | b
    · simp [mergeStates]
    · cases b <;> simp [mergeStates, PlaceState.merge]
  · rcases b with - | b
    · cases a <;> simp [mergeStates, PlaceState.merge]
    · cases a <;> cases b <;> simp [mergeStates, PlaceState.merge]

lemma mergeStates_cases {a b : Option PlaceState} {st : PlaceState}
    (h : mergeStates a b = some st) : a = some st ∨ b = some st := by
  rcases a with - | a
  · rcases b with - | b
    · cases h
    · cases b <;> exact .inr h
  · rcases b with - | b
    · cases a <;> exact .inl h
    · cases a <;> cases b <;> first | exact .inl h | exact .inr h

namespace Coherent

variable {R R' : Place → PlaceState → Prop} {S S' : Place → MoveSite → Prop} {f g : Flow}
  {p : Place} {st : PlaceState}

variable (h : f.Coherent R S)

include h

lemma mono (hR : ∀ q st, R q st → R' q st) (hS : ∀ q site, S q site → S' q site) :
    f.Coherent R' S' :=
  ⟨h.sited, fun q st hst => hR q st (h.states q st hst),
    fun q site hq => hS q site (h.sites q site hq)⟩

lemma congr (hstates : g.states = f.states) (hsites : g.sites = f.sites) : g.Coherent R S := by
  constructor
  · rw [hstates, hsites]
    exact h.sited
  · rw [hstates]
    exact h.states
  · rw [hsites]
    exact h.sites

lemma mark (hp : f.states.get? p ≠ some .moved) (hst : st ≠ .moved) (hR : R p st) :
    (f.mark p st).Coherent R S := by
  constructor
  · intro q
    rw [get?_mark]
    refine (h.sited q).trans ?_
    split
    · rename_i hq
      rw [hq]
      exact iff_of_false hp fun heq => hst (Option.some.inj heq)
    · exact .rfl
  · intro q st' hq
    rw [get?_mark] at hq
    split at hq
    · rename_i hqp
      rw [hqp, ← Option.some.inj hq]
      exact hR
    · exact h.states q st' hq
  · exact h.sites

lemma keep (k : Place → Bool) :
    ({ f with states := f.states.keep k, sites := f.sites.keep k } : Flow).Coherent
      (fun q st => R q st ∧ k q = true) S := by
  constructor
  · intro q
    simp only [Registry.get?_keep]
    split
    · exact h.sited q
    · simp
  · intro q st hq
    simp only [Registry.get?_keep] at hq
    split at hq
    · rename_i hk
      exact ⟨h.states q st hq, hk⟩
    · cases hq
  · intro q site hq
    simp only [Registry.get?_keep] at hq
    split at hq
    · exact h.sites q site hq
    · cases hq

lemma resetBelow : (f.resetBelow p).Coherent R S :=
  (h.keep (!p.covers ·)).mono (fun _ _ hR => hR.1) fun _ _ hS => hS

lemma moveOut {site : MoveSite} (hR : R p .moved) (hS : S p site) :
    (f.moveOut p site).Coherent R S := by
  have hreset : (f.resetBelow p).Coherent R S := h.resetBelow
  have hsites : ∀ q, (f.moveOut p site).sites.get? q =
      if q = p then some site else (f.resetBelow p).sites.get? q :=
    fun q => Registry.get?_insert ..
  have hstates : ∀ q, (f.moveOut p site).states.get? q =
      if q = p then some .moved else (f.resetBelow p).states.get? q :=
    fun q => get?_mark ..
  constructor
  · intro q
    rw [hsites, hstates]
    split
    · exact iff_of_true ⟨site, rfl⟩ rfl
    · exact hreset.sited q
  · intro q st hq
    rw [hstates] at hq
    split at hq
    · rename_i hqp
      rw [hqp, ← Option.some.inj hq]
      exact hR
    · exact hreset.states q st hq
  · intro q site' hq
    rw [hsites] at hq
    split at hq
    · rename_i hqp
      rw [hqp, ← Option.some.inj hq]
      exact hS
    · exact hreset.sites q site' hq

lemma refill (hR : R p .owned) : (f.refill p).Coherent R S := by
  refine h.resetBelow.mark ?_ (by decide) hR
  rw [get?_resetBelow, if_pos p.covers_refl]
  exact fun heq => nomatch heq

lemma forget (bs : List Binding) :
    (bs.foldl Flow.forget f).Coherent (fun q st => R q st ∧ q.base ∉ bs) S := by
  induction bs generalizing f R with
  | nil => exact h.mono (fun _ _ hR => ⟨hR, not_mem_nil⟩) fun _ _ hS => hS
  | cons b bs ih =>
    refine (ih (h.keep (·.base ≠ b))).mono (fun q st hR => ?_) fun _ _ hS => hS
    obtain ⟨⟨hR, hb⟩, hbs⟩ := hR
    exact ⟨hR, not_mem_cons_of_ne_of_not_mem (of_decide_eq_true hb) hbs⟩

omit h

lemma merge (hf : f.Coherent R S) (hg : g.Coherent R S) : (f.merge g).Coherent R S := by
  cases hfr : f.returned with
  | true =>
    rw [merge_of_returned_left hfr]
    exact hg
  | false =>
    cases hgr : g.returned with
    | true =>
      rw [merge_of_returned_right hfr hgr]
      exact hf
    | false =>
      have hsites : ∀ q, (f.merge g).sites.get? q = (f.sites.get? q).or (g.sites.get? q) := by
        intro q
        simp only [Flow.merge, hfr, hgr, Bool.false_eq_true, if_false]
        exact Registry.get?_combine _ rfl ..
      constructor
      · intro q
        rw [get?_merge hfr hgr, mergeStates_eq_moved_iff, ← hf.sited, ← hg.sited, hsites]
        cases f.sites.get? q <;> simp
      · intro q st hq
        rw [get?_merge hfr hgr] at hq
        exact (mergeStates_cases hq).elim (hf.states q st) (hg.states q st)
      · intro q site hq
        rw [hsites] at hq
        rcases Option.or_eq_some_iff.mp hq with hq | ⟨-, hq⟩
        · exact hf.sites q site hq
        · exact hg.sites q site hq

end Coherent

end Flow

/-! ### What a walk has done -/

namespace Context

/-- Whether a binding is a parameter or a walk has come past its declaration. -/
def Declared (c : Context) (H : List Station) (x : Binding) : Prop :=
  x.isParam = true ∨ ∃ e s, .visit e s ∈ H ∧ e.kind = .step ∧ x ∈ c.tree.declaredBy e.pos

/-- Whether a walk has moved a place at a position: it has come past a statement or the header of an
arm there, which tried to move the place and was not refused. -/
def MovedAt (c : Context) (H : List Station) (q : Place) (pos : Int) : Prop :=
  ∃ e s, .visit e s ∈ H ∧ e ∈ c.function.skeleton.events ∧ e.pos = pos ∧
    ∃ u, c.Tries e s (.move q) u ∧ u.flow.refusal? q = none

/-- Whether findings cite moves that a walk has made. -/
def Cites (c : Context) (H : List Station) (fs : List Finding) : Prop :=
  ∀ f ∈ fs, ∀ place pos, f.violation.citedMove? = some (place, pos) →
    pos ≠ MoveSite.missing.pos ∧ ∃ q, q.describe = place ∧ c.MovedAt H q pos

variable {c : Context} {H H' : List Station} {x : Binding} {q : Place} {pos : Int} {s s' : Session}

lemma Declared.mono (h : c.Declared H x) (hsub : H ⊆ H') : c.Declared H' x :=
  h.imp_right fun ⟨e, s, hmem, hk, hx⟩ => ⟨e, s, hsub hmem, hk, hx⟩

lemma MovedAt.mono (h : c.MovedAt H q pos) (hsub : H ⊆ H') : c.MovedAt H' q pos := by
  obtain ⟨e, s, hmem, he, hpos, htries⟩ := h
  exact ⟨e, s, hsub hmem, he, hpos, htries⟩

lemma Cites.mono {fs : List Finding} (h : c.Cites H fs) (hsub : H ⊆ H') : c.Cites H' fs := by
  intro f hf place pos hcite
  obtain ⟨hne, q, hq, hmoved⟩ := h f hf place pos hcite
  exact ⟨hne, q, hq, hmoved.mono hsub⟩

lemma MovedAt.ne_missing (h : c.MovedAt H q pos) : pos ≠ MoveSite.missing.pos := by
  obtain ⟨e, -, -, he, rfl, -⟩ := h
  obtain ⟨hi, hspans⟩ := c.function.spans_skeleton
  obtain ⟨hle, -⟩ := hspans.mem_events he
  have hmissing : MoveSite.missing.pos = -1 := rfl
  unfold Function.bodyStart at hle
  omega

lemma Cites.aside (h : c.Cites H s.findings) (ha : s.Aside s') : c.Cites H s'.findings := by
  obtain ⟨more, hmore, hnone⟩ := ha.findings
  intro f hf place pos hcite
  rw [hmore] at hf
  rcases mem_append.mp hf with hf | hf
  · exact h f hf place pos hcite
  · rw [hnone f hf] at hcite
    cases hcite

lemma Cites.report {f : Finding} (h : c.Cites H s.findings)
    (hf : f.violation.citedMove? = some (q.describe, pos)) (hq : c.MovedAt H q pos) :
    c.Cites H (s.report f).findings := by
  unfold Session.report
  split
  · exact h
  · intro g hg place pos' hcite
    rcases mem_append.mp hg with hg | hg
    · exact h g hg place pos' hcite
    · rw [mem_singleton.mp hg, hf] at hcite
      cases hcite
      exact ⟨hq.ne_missing, q, rfl, hq⟩

/-! ### States in order -/

/-- Whether a state may be recorded for a place before a position: the place is based on a binding
that is declared and alive, only whole bindings are uninitialized, and what is moved does not lie
behind a reference. -/
structure Recordable (c : Context) (p : Int) (H : List Station) (q : Place) (st : PlaceState) :
    Prop where
  alive : c.tree.Alive p q.base
  declared : c.Declared H q.base
  whole : st = .uninit → q.path = []
  owned : st = .moved → c.typing.refPrefix? q = .ok none

/-- Whether an ownership state before a position is in order after a log. -/
def Ordered (c : Context) (p : Int) (H : List Station) (f : Flow) : Prop :=
  f.Coherent (c.Recordable p H) fun q site => c.MovedAt H q site.pos

/-- Whether a session before a position is in order after a log. -/
structure Kept (c : Context) (p : Int) (H : List Station) (s : Session) : Prop where
  scopes : ∀ S, S ∈ s.scopes ↔ S ∈ c.tree.scopes ∧ S.UpTo p
  flow : c.Ordered p H s.flow
  /-- A path that has not returned has come past all declarations. -/
  seen : s.flow.returned = false → ∀ x, c.tree.Alive p x → c.Declared H x
  cites : c.Cites H s.findings

lemma Ordered.mono {p p' : Int} {f : Flow} (h : c.Ordered p H f)
    (halive : ∀ x, c.tree.Alive p x → c.tree.Alive p' x) (hsub : H ⊆ H') : c.Ordered p' H' f := by
  refine Flow.Coherent.mono h (fun q st hq => ?_) fun q site hq => hq.mono hsub
  exact ⟨halive _ hq.alive, hq.declared.mono hsub, hq.whole, hq.owned⟩

/-! ### Statements and arms -/

/-- Whether an ownership state is in order while an event is executed. What the event declares is
not moved meanwhile. -/
def Underway (c : Context) (e : Event) (H : List Station) (f : Flow) : Prop :=
  f.Coherent (fun q st => c.Recordable (e.pos + 1) H q st ∧
    (st = .moved → c.tree.Alive e.pos q.base))
    fun q site => c.MovedAt H q site.pos

section Step

variable {e : Event} {start : Session} (hnests : c.tree.Nests c.function.events)
  (he : e ∈ c.function.skeleton.events) (hk : e.kind = .step)

include hnests he hk

/-- In the middle of an event the state is in order, and findings cite earlier moves. -/
lemma Acts.underway (h : c.Acts e start s s') (hvisit : .visit e start ∈ H)
    (hseen : ∀ x, c.tree.Alive e.pos x → c.Declared H x) (hs : c.Underway e H s.flow)
    (hcites : c.Cites H s.findings) : c.Underway e H s'.flow ∧ c.Cites H s'.findings := by
  have hevent := c.function.mem_events_of_skeleton he
  have hlater : ∀ {x : Binding}, c.tree.Alive e.pos x → c.tree.Alive (e.pos + 1) x :=
    fun hx => (hnests.alive_step hevent hk).mpr (.inl hx)
  induction h with
  | aside h =>
    rw [h.flow]
    exact ⟨hs, hcites.aside h⟩
  | begin s loc => exact ⟨hs, hcites⟩
  | @refuse s q f hq hf =>
    have hmoved : s.flow.states.get? q = some .moved := of_decide_eq_true hq
    obtain ⟨site, hsite⟩ := (hs.sited q).mpr hmoved
    have hpos : (s.flow.siteOf q).pos = site.pos := by rw [Flow.siteOf, hsite, Option.getD_some]
    rw [hpos] at hf
    rw [Session.flow_report]
    exact ⟨hs, hcites.report hf (hs.sites q site hsite)⟩
  | @mark s b st hb hst =>
    refine ⟨Flow.Coherent.mark hs (fun hmoved => ?_) hst ⟨⟨?_, ?_, fun _ => rfl, ?_⟩, ?_⟩, hcites⟩
    · have halive := (hs.states _ _ hmoved).2 rfl
      have hdecl := ((hnests.mem_declaredBy_iff hevent hk).mp hb).2
      have hlt : b.declaredAt < e.pos := halive.earlier
      omega
    · exact (hnests.alive_step hevent hk).mpr (.inr hb)
    · exact .inr ⟨e, start, hvisit, hk, hb⟩
    · exact fun h => absurd h hst
    · exact fun h => absurd h hst
  | @move s m p span ht hp hm =>
    obtain ⟨hnone, hnamed⟩ := ht.move
    have halive := hnamed.alive hnests he hk
    have hmcites := hcites.aside hm
    refine ⟨Flow.Coherent.moveOut ?_ ⟨⟨hlater halive, hseen _ halive, ?_, fun _ => hnone⟩,
      fun _ => halive⟩ ⟨e, start, hvisit, he, rfl, s, ht, hp⟩, hmcites⟩
    · rw [hm.flow]
      exact hs
    · exact fun h => nomatch h
  | @write s m p ht hm =>
    have halive := ht.write.alive hnests he hk
    have hmcites := hcites.aside hm
    refine ⟨Flow.Coherent.refill ?_ ⟨⟨hlater halive, hseen _ halive, ?_, ?_⟩, ?_⟩, hmcites⟩
    · rw [hm.flow]
      exact hs
    · exact fun h => nomatch h
    · exact fun h => nomatch h
    · exact fun h => nomatch h
  | leave s _ =>
    rw [states_leaveFunction, findings_leaveFunction]
    exact ⟨hs.congr rfl rfl, hcites⟩
  | trans _ _ ih ih' =>
    obtain ⟨hm, hmcites⟩ := ih hs hcites
    exact ih' hm hmcites

lemma Kept.underway (h : c.Kept e.pos H s) : c.Underway e (H ++ [.visit e s]) s.flow := by
  have hevent := c.function.mem_events_of_skeleton he
  have hsub : H ⊆ H ++ [.visit e s] := subset_append_left _ _
  refine .mono h.flow (fun q st hq => ⟨⟨?_, ?_, hq.whole, hq.owned⟩, ?_⟩)
    fun q site hq => hq.mono hsub
  · exact (hnests.alive_step hevent hk).mpr (.inl hq.alive)
  · exact hq.declared.mono hsub
  · exact fun _ => hq.alive

/-- What the event has done up to some point of its execution leaves the state in order. -/
lemma Kept.acts (h : c.Kept e.pos H s) (hret : s.flow.returned = false) (hacts : c.Acts e s s s') :
    c.Underway e (H ++ [.visit e s]) s'.flow ∧ c.Cites (H ++ [.visit e s]) s'.findings := by
  have hsub : H ⊆ H ++ [.visit e s] := subset_append_left _ _
  exact hacts.underway hnests he hk (mem_append_right _ mem_cons_self)
    (fun x hx => (h.seen hret x hx).mono hsub) (h.underway hnests he hk) (h.cites.mono hsub)

lemma Kept.step (h : c.Kept e.pos H s) (hret : s.flow.returned = false)
    (hexec : c.execute e s = .ok s') : c.Kept (e.pos + 1) (H ++ [.visit e s]) s' := by
  have hevent := c.function.mem_events_of_skeleton he
  have hacts := acts_execute hk hexec
  obtain ⟨hflow, hcites⟩ := h.acts hnests he hk hret hacts
  refine ⟨fun S => ?_, Flow.Coherent.mono hflow (fun q st hq => hq.1) fun q site hq => hq,
    fun _ x hx => ?_, hcites⟩
  · have hscopes : s'.scopes = s.scopes := congrArg Prod.fst hacts.frame.1
    rw [hscopes, h.scopes]
    exact and_congr_right fun hS => (hnests.upTo_step hevent hk hS).symm
  · rcases (hnests.alive_step hevent hk).mp hx with hx | hx
    · exact (h.seen hret x hx).mono (subset_append_left _ _)
    · exact .inr ⟨e, s, mem_append_right _ mem_cons_self, hk, hx⟩

end Step

/-! ### Scopes -/

lemma exists_finished {e : Event} (hnests : c.tree.Nests c.function.events)
    (he : e ∈ c.function.events) (hk : e.kind = .exit) (h : c.execute e s = .ok s') :
    ∃ S ∈ c.tree.scopes, S.stop = e.pos ∧
      ∃ m, c.finishScope S s = .ok m ∧ s' = m.close c.tree S.id := by
  obtain ⟨scope, m, hscope, hm, rfl⟩ := execute_exit hk h
  obtain ⟨S, hS, hlabel, hstop⟩ := hnests.exits e he hk
  rw [← hlabel, hnests.scopeOf_start hS] at hscope
  obtain rfl := Except.ok.inj hscope
  exact ⟨S, hS, hstop, m, hm, rfl⟩

lemma Cites.finishScope {scope : Scope} (h : c.Cites H s.findings)
    (hs : c.finishScope scope s = .ok s') : c.Cites H s'.findings := by
  unfold Context.finishScope at hs
  split at hs
  · rw [← Except.ok.inj hs]
    exact h
  · refine .aside ?_ (dangled_checkDangling hs).aside
    rw [Session.findings_destroy]
    exact h

section Brackets

variable {e : Event} (hnests : c.tree.Nests c.function.events) (he : e ∈ c.function.events)

include hnests he

lemma Kept.enter (h : c.Kept e.pos H s) (hk : e.kind = .enter) (hexec : c.execute e s = .ok s') :
    c.Kept (e.pos + 1) (H ++ [.visit e s]) s' := by
  obtain ⟨scope, hscope, rfl⟩ := execute_enter hk hexec
  obtain ⟨S, hS, hlabel, hstart⟩ := hnests.exists_entered he hk
  rw [← hlabel, hnests.scopeOf_start hS] at hscope
  cases hscope
  have hsub : H ⊆ H ++ [.visit e s] := subset_append_left _ _
  refine ⟨fun X => ?_, h.flow.mono (fun x => (hnests.alive_enter he hk).mpr) hsub,
    fun hret x hx => ?_,
    h.cites.mono hsub⟩
  · rw [Session.push, mem_cons, h.scopes]
    constructor
    · rintro (rfl | ⟨hX, hup⟩)
      · exact ⟨hS, (hnests.upTo_enter he hk hS hstart hS).mpr (.inl rfl)⟩
      · exact ⟨hX, (hnests.upTo_enter he hk hS hstart hX).mpr (.inr hup)⟩
    · rintro ⟨hX, hup⟩
      exact ((hnests.upTo_enter he hk hS hstart hX).mp hup).imp_right fun hup => ⟨hX, hup⟩
  · exact (h.seen hret x ((hnests.alive_enter he hk).mp hx)).mono hsub

/-- The end of a scope leaves the state in order, with its bindings gone. -/
lemma Kept.exit {H₀ : List Station} {s₀ : Session} (h : c.Kept e.pos H s) (hk : e.kind = .exit)
    (h₀ : c.Kept e.label H₀ s₀) (htail : s.scopes.tail = s₀.scopes)
    (hup : ∀ S ∈ c.tree.scopes, S.UpTo (e.pos + 1) ↔ S.UpTo e.label)
    (hexec : c.execute e s = .ok s') : c.Kept (e.pos + 1) (H ++ [.visit e s]) s' := by
  obtain ⟨S, hS, hstop, m, hm, rfl⟩ := exists_finished hnests he hk hexec
  have hsub : H ⊆ H ++ [.visit e s] := subset_append_left _ _
  have hflow : m.flow = s.flow := flow_finishScope hm
  have hcites : c.Cites (H ++ [.visit e s]) m.findings := (h.cites.mono hsub).finishScope hm
  refine ⟨fun X => ?_, ?_, fun hret x hx => ?_, hcites⟩
  · have hscopes : m.scopes = s.scopes := congrArg Prod.fst (frame_finishScope hm).1
    rw [Session.close, hscopes, htail, h₀.scopes]
    exact and_congr_right fun hX => (hup X hX).symm
  · refine Flow.Coherent.mono (Flow.Coherent.forget (hflow ▸ h.flow) (c.tree.bindingsOf S.id))
      (fun q st hq => ?_) fun q site hq => hq.mono hsub
    obtain ⟨hq, hgone⟩ := hq
    have hout : q.base.scope ≠ S.id := fun hid =>
      hgone (mem_filter.mpr ⟨hq.alive.mem, decide_eq_true hid⟩)
    exact ⟨(hnests.alive_exit he hk hS hstop).mpr ⟨hq.alive, hout⟩, hq.declared.mono hsub, hq.whole,
      hq.owned⟩
  · rw [returned_close, hflow] at hret
    exact (h.seen hret x ((hnests.alive_exit he hk hS hstop).mp hx).1).mono hsub

end Brackets

lemma Kept.mono (h : c.Kept pos H s) (hsub : H ⊆ H') : c.Kept pos H' s where
  scopes := h.scopes
  flow := h.flow.mono (fun _ hx => hx) hsub
  seen hret x hx := (h.seen hret x hx).mono hsub
  cites := h.cites.mono hsub

/-- Every step of a walk leaves the session in order. -/
theorem maintains_kept (hnests : c.tree.Nests c.function.events) : c.Maintains c.Kept where
  step he hk hret h hexec := h.step hnests he hk hret hexec
  enter he hk h hexec := h.enter hnests he hk hexec
  exit he hk h₀ htail hup h hexec := h.exit hnests he hk h₀ htail hup hexec
  finish := by
    intro p H s pos h
    have hmono : c.Kept p (H ++ [.finish pos s]) s := h.mono (subset_append_left _ _)
    exact ⟨hmono.scopes, hmono.flow, hmono.seen, hmono.cites⟩
  shift := by
    intro p q H s hup halive hback h
    refine ⟨fun S => ?_, h.flow.mono halive (List.Subset.refl H), fun hret x hx => ?_, h.cites⟩
    · rw [h.scopes]
      exact and_congr_right fun hS => (hup S hS).symm
    · rcases hback with hback | hback
      · rw [hret] at hback
        cases hback
      · exact h.seen hret x (hback x hx)
  resume := by
    intro p H l s s' h h'
    have hmono : c.Kept p (H ++ l) s := h.mono (subset_append_left _ _)
    exact ⟨h'.scopes, hmono.flow, hmono.seen, h'.cites⟩
  merge := by
    intro p H s f g hf hg
    refine ⟨hf.scopes, Flow.Coherent.merge hf.flow hg.flow, fun hret x hx => ?_, hf.cites⟩
    have hboth : (f.returned && g.returned) = false := (Flow.returned_merge f g).symm.trans hret
    rcases Bool.and_eq_false_iff.mp hboth with hret | hret
    · exact hf.seen hret x hx
    · exact hg.seen hret x hx
  replay n h := ⟨h.scopes, h.flow, h.seen, h.cites⟩

end Context

/-! ### Parameters -/

lemma Param.kind_of_mem_eventsAll {params : List Param} {p : Int} {e : Event}
    (he : e ∈ Param.eventsAll p params) : e.kind = .step := by
  induction params generalizing p with
  | nil => cases he
  | cons x params ih =>
    rcases mem_cons.mp he with rfl | he
    · rfl
    · exact ih he

lemma Function.mem_events_cases {f : Function} {e : Event} (he : e ∈ f.events) :
    e = .enter 0 .function .function ∨ e ∈ Param.eventsAll 1 f.params ∨ e ∈ f.skeleton.events ∨
      e = .exit 0 f.stop .function := by
  rw [Function.events_skeleton]
  rcases mem_cons.mp he with rfl | he
  · exact .inl rfl
  · rcases mem_append.mp he with he | he
    · exact .inr ((mem_append.mp he).imp_right .inl)
    · exact .inr (.inr (.inr (mem_singleton.mp he)))

namespace ScopeTree

variable {f : Function} {t : ScopeTree} (h : t.Nests f.events)

include h

/-- Parameters are the bindings that are declared before the body. -/
lemma Nests.isParam_iff {x : Binding} (hx : x ∈ t.bindings) :
    x.isParam = true ↔ x.declaredAt < f.bodyStart := by
  obtain ⟨d, hd, hk, hpos, hlabel⟩ := h.declared x hx
  obtain ⟨scope, index, hdeclares⟩ := h.declares d hd hk
  have hmem : x ∈ t.declaredBy d.label := mem_filter.mpr ⟨hx, decide_eq_true hlabel.symm⟩
  rw [hdeclares] at hmem
  obtain ⟨-, -, decl, hdecl, heq⟩ := ScopeBuilder.mem_numbered hmem
  have hparam : x.isParam = decl.isParam := by rw [heq]; rfl
  rw [← hpos, hparam]
  rcases Function.mem_events_cases hd with rfl | hd | hd | rfl
  · cases hk
  · obtain ⟨param, -, hnode⟩ := Param.exists_of_mem_eventsAll hd
    rw [hnode] at hdecl
    rw [mem_singleton.mp hdecl]
    exact iff_of_true rfl ((Param.consecutive_eventsAll 1 f.params).bounds hd).2
  · obtain ⟨hi, hspans⟩ := f.spans_skeleton
    refine iff_of_false (fun htrue => ?_) (not_lt.mpr (hspans.mem_events hd).1)
    have hof := Stmt.of_eventsAll f.bodyStart f.body.stmts d (f.events_skeleton ▸ hd) hk
    cases hn : d.node with
    | function => rw [hn] at hof; exact hof
    | param p => rw [hn] at hof; exact hof
    | arm a sel =>
      rw [hn] at hdecl
      obtain ⟨name, -, rfl⟩ := mem_map.mp hdecl
      cases htrue
    | stmt s =>
      rw [hn] at hdecl
      cases s with
      | declare name type value mutable loc =>
        rw [mem_singleton.mp hdecl] at htrue
        cases htrue
      | _ => cases hdecl
  · cases hk

lemma Nests.bodyStart_le_stop {S : Scope} (hS : S ∈ t.scopes) : f.bodyStart ≤ S.stop := by
  obtain ⟨hi, hspans⟩ := f.spans_skeleton
  obtain ⟨e, he, hk, -, hpos, -⟩ := h.left S hS
  rw [← hpos]
  rcases Function.mem_events_cases he with rfl | he | he | rfl
  · cases hk
  · rw [Param.kind_of_mem_eventsAll he] at hk
    cases hk
  · exact (hspans.mem_events he).1
  · exact (Stmt.spans_skeletonAll f.bodyStart f.body.stmts).le

lemma Nests.start_lt_bodyStart_iff {S : Scope} (hS : S ∈ t.scopes) :
    S.start < f.bodyStart ↔ S.start = 0 := by
  obtain ⟨hi, hspans⟩ := f.spans_skeleton
  obtain ⟨e, he, hk, hpos⟩ := h.entered S hS
  rw [← hpos]
  have hbody : 0 < f.bodyStart := by unfold Function.bodyStart; omega
  rcases Function.mem_events_cases he with rfl | he | he | rfl
  · exact iff_of_true hbody rfl
  · rw [Param.kind_of_mem_eventsAll he] at hk
    cases hk
  · have := (hspans.mem_events he).1
    omega
  · cases hk

end ScopeTree

namespace Context

variable {c : Context} {s : Session}

lemma start_eq (root : Scope) : c.start root = ({ scopes := [root] } : Session).withFlow
    ((c.tree.bindings.filter (·.isParam)).foldl (fun f b => f.mark (.ofBinding b) .owned) {}) := by
  have hfold : ∀ (bs : List Binding) (s : Session),
      bs.foldl (fun s b => s.mark (.ofBinding b) .owned) s =
        s.withFlow (bs.foldl (fun f b => f.mark (.ofBinding b) .owned) s.flow) := by
    intro bs
    induction bs with
    | nil => exact fun _ => rfl
    | cons b bs ih => exact fun s => ih _
  exact hfold _ _

lemma coherent_start {R : Place → PlaceState → Prop} {S : Place → MoveSite → Prop} {f : Flow}
    {bs : List Binding} (hf : f.Coherent (fun q st => R q st ∧ st ≠ .moved) S)
    (hbs : ∀ b ∈ bs, R (.ofBinding b) .owned) :
    (bs.foldl (fun f b => f.mark (.ofBinding b) .owned) f).Coherent
      (fun q st => R q st ∧ st ≠ .moved) S := by
  induction bs generalizing f with
  | nil => exact hf
  | cons b bs ih =>
    obtain ⟨hb, hbs⟩ := forall_mem_cons.mp hbs
    refine ih (hf.mark (fun hmoved => ?_) (by decide) ⟨hb, by decide⟩) hbs
    exact (hf.states _ _ hmoved).2 rfl

/-- A walk begins with its state in order. -/
lemma kept_initial (hnests : c.tree.Nests c.function.events) (h : c.initial = .ok s) :
    c.Kept c.function.bodyStart [] s := by
  have hfindings := (initial_fields h).2.2
  obtain ⟨root, hroot, rfl⟩ := map_eq_ok.mp h
  obtain ⟨S, hS, hlabel, -⟩ := hnests.exists_entered mem_cons_self rfl
  have hstart : S.start = 0 := hlabel
  rw [← hstart, hnests.scopeOf_start hS] at hroot
  cases hroot
  have hparam : ∀ x, c.tree.Alive c.function.bodyStart x ↔ x ∈ c.tree.bindings ∧
    x.isParam = true := by
    intro x
    constructor
    · intro hx
      exact ⟨hx.mem, (hnests.isParam_iff hx.mem).mpr hx.earlier⟩
    · rintro ⟨hx, hparam⟩
      obtain ⟨X, hX, -, -, hstop, -⟩ := hnests.exists_owner hx
      exact ⟨hx, (hnests.isParam_iff hx).mp hparam, hstop ▸ hnests.bodyStart_le_stop hX⟩
  refine ⟨fun X => ?_, ?_, fun _ x hx => .inl ((hparam x).mp hx).2, ?_⟩
  · rw [start_eq, Session.withFlow, mem_singleton]
    constructor
    · rintro rfl
      exact ⟨hS, (hnests.start_lt_bodyStart_iff hS).mpr hstart, hnests.bodyStart_le_stop hS⟩
    · rintro ⟨hX, hlt, -⟩
      exact hnests.eq_of_start hX hS (((hnests.start_lt_bodyStart_iff hX).mp hlt).trans hstart.symm)
  · have hempty : ({} : Flow).Coherent
        (fun q st => c.Recordable c.function.bodyStart [] q st ∧ st ≠ .moved)
        fun q site => c.MovedAt [] q site.pos :=
      ⟨fun q => by simp, fun q st h => by simp at h, fun q site h => by simp at h⟩
    rw [start_eq]
    refine Flow.Coherent.mono (coherent_start hempty fun b hb => ?_) (fun q st hq => hq.1)
      fun q site hq => hq
    obtain ⟨hb, hbp⟩ := mem_filter.mp hb
    exact ⟨(hparam b).mpr ⟨hb, hbp⟩, .inl hbp, fun _ => rfl, fun h => by cases h⟩
  · rw [hfindings]
    intro f hf
    cases hf

end Context

lemma Typing.placeType_of_lastRef? {g : Typing} {ps : List Place} (h : g.lastRef? ps = .ok none) :
    ∀ r ∈ ps, ∃ ty, g.placeType r = .ok ty ∧ g.table.tyIsRef ty = .ok false := by
  induction ps with
  | nil => exact fun r hr => nomatch hr
  | cons p rest ih =>
    obtain ⟨ty, hty, h⟩ := bind_eq_ok.mp h
    obtain ⟨here, hhere, h⟩ := bind_eq_ok.mp h
    obtain ⟨later, hlater, h⟩ := bind_eq_ok.mp h
    obtain ⟨hlaterNone, hhereNone⟩ := Option.or_eq_none_iff.mp (Except.ok.inj h)
    cases here with
    | true => cases hhereNone
    | false =>
      refine forall_mem_cons.mpr ⟨⟨ty, hty, hhere⟩, ih ?_⟩
      rw [hlater, hlaterNone]

/-! ### All along a walk -/

namespace Context

variable {c : Context} {s : Session}

/-- The sessions all along the walk of a function and at its end are in order. -/
lemma kept_log (hnests : c.tree.Nests c.function.events) (h : c.initial = .ok s) :
    Carries c.tree c.Kept [] c.log (c.function.skeleton.walk c s) c.function.stop :=
  (maintains_kept hnests).carries_log hnests h (kept_initial hnests h)

/-- What holds of the session behind the statement at a position, after a log. -/
structure InOrder (c : Context) (H : List Station) (pos : Int) (s : Session) : Prop where
  /-- Move sites are recorded for the moved places and for no others. -/
  sites : ∀ q, q ∈ s.flow.sites.keys ↔ s.flow.states.get? q = some .moved
  /-- A place with a record is based on a declared binding of an open scope. -/
  bases : ∀ q ∈ s.flow.states.keys, q.base ∈ c.tree.bindings ∧ c.Declared H q.base ∧
    c.tree.OpenAt q.base.scope pos ∧ ∃ S ∈ s.scopes, S.id = q.base.scope
  /-- Only whole bindings are uninitialized. -/
  whole : ∀ q, s.flow.states.get? q = some .uninit → q.path = []
  /-- What is moved does not lie behind a reference. -/
  owned : ∀ q, s.flow.states.get? q = some .moved → ∀ r ∈ q.strictPrefixes,
    ∃ ty, c.typing.placeType r = .ok ty ∧ c.typing.table.tyIsRef ty = .ok false
  cites : c.Cites H s.findings

lemma Kept.inOrder {p pos : Int} {H : List Station} (h : c.Kept p H s)
    (hnests : c.tree.Nests c.function.events) (hpos : pos < p)
    (hup : ∀ S ∈ c.tree.scopes, S.UpTo p ↔ S.UpTo pos) : c.InOrder H pos s where
  sites q := Registry.mem_keys_iff.trans (h.flow.sited q)
  bases q hq := by
    obtain ⟨st, hst⟩ := Registry.mem_keys_iff.mp hq
    have hrec := h.flow.states q st hst
    obtain ⟨X, hX, howner, hid, hstop, hstart, -⟩ := hnests.exists_owner hrec.alive.mem
    have hopen : X.UpTo p := ⟨hstart.trans hrec.alive.earlier, hstop ▸ hrec.alive.upTo⟩
    refine ⟨hrec.alive.mem, hrec.declared, ⟨X, howner, ((hup X hX).mp hopen).1, ?_⟩,
      X, (h.scopes X).mpr ⟨hX, hopen⟩, hid⟩
    exact hpos.trans_le hopen.2
  whole q hq := (h.flow.states q _ hq).whole rfl
  owned q hq r hr := Typing.placeType_of_lastRef? ((h.flow.states q _ hq).owned rfl) r hr
  cites := h.cites

lemma nests_of_build {program : Program} {f : Function} {options : Options}
    (h : build program f options = .ok c) : c.tree.Nests c.function.events := by
  rw [(build_fields h).2.2]
  exact ScopeTree.nests_of_ofFunction (tree_of_build h)

/-- Behind every statement that the walk of a function completes, with or without loans, the
ownership state is in order. The trace of a walk that ends shows these states, and all findings
that cite a move cite one that the walk has made. -/
theorem ownership_states_in_order {program : Program} {f : Function} {options : Options}
    (hbuild : build program f options = .ok c) (loans : Bool) :
    (∀ before pos s after, (c.tracking loans).log = before ++ .finish pos s :: after →
      (c.tracking loans).InOrder before pos s) ∧
    ∀ s, (c.tracking loans).run = .ok s →
      s.trace = (c.tracking loans).log.filterMap Station.snapshot? ∧
      (c.tracking loans).Cites (c.tracking loans).log s.findings := by
  have htree := nests_of_build hbuild
  have hnests : (c.tracking loans).tree.Nests (c.tracking loans).function.events := htree
  constructor
  · intro before pos s after hlog
    cases h₀ : (c.tracking loans).initial with
    | error fault =>
      rw [log, h₀] at hlog
      simp [Fault.seen] at hlog
    | ok s₀ =>
      have halong := (kept_log hnests h₀).along
      rw [hlog] at halong
      obtain ⟨p, hlt, hup, hkept⟩ := halong.holds
      exact hkept.inOrder hnests hlt hup
  · intro s hrun
    obtain ⟨s₀, s₁, h₀, h₁, hexit⟩ := run_cases hrun
    constructor
    · rw [trace_execute hexit, Skeleton.trace_walk _ h₁, log, h₀]
      obtain ⟨root, -, rfl⟩ := map_eq_ok.mp h₀
      rw [start_eq]
      rfl
    · have hkept := (kept_log hnests h₀).last s₁ h₁
      obtain ⟨scope, m, -, hm, rfl⟩ := execute_exit rfl hexit
      have hcites := hkept.cites.finishScope hm
      exact hcites

/-- A value that a loop moves in every round: behind the move the state is in order, and the
finding of the second round cites the move of the first one. -/
theorem ownership_states_in_order_strain : ∃ c before pos s after last,
    build { types := .texts } .strain {} = .ok c ∧
    (c.tracking true).log = before ++ .finish pos s :: after ∧
    (s.flow.states.entries.any (·.2 = .moved)) = true ∧ (c.tracking true).InOrder before pos s ∧
    (c.tracking true).run = .ok last ∧
    last.findings.map (·.violation.citedMove?) = [some ("d", 7), none] ∧
    last.trace = (c.tracking true).log.filterMap Station.snapshot? ∧
    (c.tracking true).Cites (c.tracking true).log last.findings := by
  have hok : ((build { types := .texts } .strain {} >>= fun c =>
      (c, ·) <$> (c.tracking true).run).toOption.any fun (c, s) =>
        decide (s.findings.map (·.violation.citedMove?) = [some ("d", 7), none]) &&
          (c.tracking true).log.any fun st => st.snapshot?.any fun n =>
            n.flow.states.entries.any (·.2 = .moved)) = true := by
    decide +kernel
  obtain ⟨⟨c, last⟩, hall, htest⟩ := Fault.exists_ok hok
  obtain ⟨c, hbuild, hall⟩ := bind_eq_ok.mp hall
  obtain ⟨last, hrun, heq⟩ := map_eq_ok.mp hall
  obtain ⟨rfl, rfl⟩ : _ ∧ _ := by simpa using heq
  obtain ⟨hcited, hmoved⟩ := Bool.and_eq_true_iff.mp htest
  obtain ⟨st, hst, hshows⟩ := any_eq_true.mp hmoved
  obtain ⟨before, after, hlog⟩ := append_of_mem hst
  obtain ⟨hstates, hlast⟩ := ownership_states_in_order hbuild true
  obtain ⟨htrace, hcites⟩ := hlast last hrun
  cases st with
  | visit e s => cases hshows
  | finish pos s =>
    exact ⟨c, before, pos, s, after, last, hbuild, hlog, hshows, hstates before pos s after hlog,
      hrun,
      of_decide_eq_true hcited, htrace, hcites⟩

end Context

end Ownership
