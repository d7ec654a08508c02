import Ownership.Proofs.Moves.States
import Ownership.Report

/-!
# Destructions

A binding is destroyed at the end of the scope that owns it or at a return inside that scope. A
return destroys all bindings of the open scopes, those that are declared behind it included:
nothing is recorded for them, so that they count as owned. Those are the only bindings that are
destroyed without having been declared.
-/

namespace Ownership

open List

/-! ### Records of destructions -/

def Drop.ofBinding (b : Binding) (pos : Int) : Drop :=
  { binding := b.name, declaredAt := b.declaredAt, pos }

namespace Flow

/-- The destruction of a binding at a position, if there is something left to destroy. -/
def dropOf? (f : Flow) (pos : Int) (b : Binding) : Option Drop :=
  match f.status b with
  | .owned => some (.ofBinding b pos)
  | .partiallyMoved fields =>
    some { Drop.ofBinding b pos with isPartial := true, movedFields := fields }
  | .movedOut | .uninitialized => none

variable {f : Flow} {b : Binding} {pos : Int} {r : Drop}

lemma dropOf?_eq_some (h : f.dropOf? pos b = some r) :
    r.binding = b.name ∧ r.declaredAt = b.declaredAt ∧ r.pos = pos := by
  unfold dropOf? at h
  split at h
  · cases h
    exact ⟨rfl, rfl, rfl⟩
  · cases h
    exact ⟨rfl, rfl, rfl⟩
  · cases h
  · cases h

lemma dropOf?_of_unrecorded (h : ∀ q st, f.states.get? q = some st → q.base ≠ b) (pos : Int) :
    f.dropOf? pos b = some (.ofBinding b pos) := by
  have hstate : f.states.get? (.ofBinding b) = none := by
    cases hst : f.states.get? (.ofBinding b) with
    | none => rfl
    | some st => exact absurd rfl (h _ st hst)
  have hparts : f.movedParts b = [] := by
    rw [movedParts, map_eq_nil_iff, filter_eq_nil_iff]
    intro ⟨q, st⟩ hq hbase
    simp only [Bool.and_eq_true, decide_eq_true_eq] at hbase
    exact h q st (Registry.get?_eq_some_iff.mpr hq) hbase.1.2
  rw [dropOf?, status, stateOf, hstate]
  simp only [Option.getD_none, hparts]

end Flow

namespace Session

variable {s : Session} {r : Drop}

lemma mem_drops_recordDrop {d : Drop} : r ∈ (s.recordDrop d).drops ↔ r ∈ s.drops ∨ r = d := by
  unfold recordDrop
  split
  · rename_i h
    have hd : d ∈ s.drops := contains_iff_mem.mp (Bool.and_eq_true_iff.mp h).2
    exact ⟨.inl, fun hr => hr.elim id fun hr => hr ▸ hd⟩
  · rw [mem_append, mem_singleton]

lemma mem_drops_drop {pos : Int} {b : Binding} :
    r ∈ (drop pos s b).drops ↔ r ∈ s.drops ∨ s.flow.dropOf? pos b = some r := by
  unfold drop Flow.dropOf?
  cases s.flow.status b with
  | owned | partiallyMoved fields =>
    simp only [mem_drops_recordDrop, Option.some.injEq, eq_comm]; rfl
  | movedOut => simp
  | uninitialized => simp

lemma mem_drops_foldl {β : Type} {g : Session → β → Session} {D : β → Drop → Prop} {f : Flow}
    (hflow : ∀ s b, (g s b).flow = s.flow)
    (hdrops : ∀ s b, s.flow = f → (r ∈ (g s b).drops ↔ r ∈ s.drops ∨ D b r)) (l : List β)
    (hs : s.flow = f) : r ∈ (l.foldl g s).drops ↔ r ∈ s.drops ∨ ∃ b ∈ l, D b r := by
  induction l generalizing s with
  | nil => simp
  | cons b l ih =>
    rw [foldl_cons, ih ((hflow s b).trans hs), hdrops s b hs, exists_mem_cons_iff,
      or_assoc]

lemma mem_drops_destroy {tree : ScopeTree} {scope : Nat} {pos : Int} :
    r ∈ (s.destroy tree scope pos).drops ↔
      r ∈ s.drops ∨ ∃ b ∈ tree.bindingsOf scope, s.flow.dropOf? pos b = some r := by
  unfold destroy
  rw [mem_drops_foldl (D := fun b r => s.flow.dropOf? pos b = some r) (fun s b => flow_drop s pos b)
    (fun t b ht => ht ▸ mem_drops_drop) _ rfl]
  simp only [ScopeTree.dropOrder, mem_reverse]

end Session

namespace Context

variable {c : Context} {s s' : Session} {r : Drop}

lemma mem_drops_leaveFunction {pos : Int} : r ∈ (c.leaveFunction pos s).drops ↔ r ∈ s.drops ∨
    ∃ S ∈ s.scopes, ∃ b ∈ c.tree.bindingsOf S.id, s.flow.dropOf? pos b = some r :=
  Session.mem_drops_foldl
    (D := fun S r => ∃ b ∈ c.tree.bindingsOf S.id, s.flow.dropOf? pos b = some r)
    (fun s S => Session.flow_destroy s pos c.tree S.id)
    (fun _ _ ht => ht ▸ Session.mem_drops_destroy) s.scopes rfl

lemma mem_drops_finishScope {scope : Scope} (h : c.finishScope scope s = .ok s') :
    r ∈ s'.drops ↔ r ∈ s.drops ∨ s.flow.returned = false ∧
      ∃ b ∈ c.tree.bindingsOf scope.id, s.flow.dropOf? scope.stop b = some r := by
  unfold finishScope at h
  split at h
  · rename_i hret
    rw [← Except.ok.inj h, hret]
    simp
  · rename_i hret
    rw [Bool.not_eq_true] at hret
    rw [(dangled_checkDangling h).aside.drops, Session.mem_drops_destroy, hret]
    simp

end Context

lemma ScopeTree.Nests.owner?_of_mem {t : ScopeTree} {es : List Event} (h : t.Nests es) {S : Scope}
    (hS : S ∈ t.scopes) {b : Binding} (hb : b ∈ t.bindingsOf S.id) :
    b ∈ t.bindings ∧ t.owner? b = some S := by
  obtain ⟨hb, hscope⟩ := mem_filter.mp hb
  rw [ScopeTree.owner?, of_decide_eq_true hscope]
  exact ⟨hb, h.getElem?_id hS⟩

/-! ### Explanations -/

namespace Context

variable {c : Context} {s s' : Session} {r : Drop}

/-- Whether a record is of the destruction of a binding at the end of its scope, or at a return
inside that scope that a walk has come past. What is declared behind the return is destroyed as a
whole. -/
def Destroys (c : Context) (H : List Station) (r : Drop) : Prop :=
  ∃ x ∈ c.tree.bindings, ∃ X, c.tree.owner? x = some X ∧ r.binding = x.name ∧
    r.declaredAt = x.declaredAt ∧
      (r.pos = X.stop ∨ ∃ e u, .visit e u ∈ H ∧ e.isReturn = true ∧ e.pos = r.pos ∧
        X.start < r.pos ∧
        r.pos < X.stop ∧ (r.pos < x.declaredAt → r = .ofBinding x r.pos))

/-- Whether a walk has recorded the destructions of what is declared behind the returns that it has
come past. -/
def Anticipates (c : Context) (H : List Station) (ds : List Drop) : Prop :=
  ∀ e u, .visit e u ∈ H → e.isReturn = true → ∀ x ∈ c.tree.bindings, c.tree.OpenAt x.scope e.pos →
    e.pos < x.declaredAt → .ofBinding x e.pos ∈ ds

/-- Whether a session is in order and its records of destructions are explained. -/
structure Accounted (c : Context) (p : Int) (H : List Station) (s : Session) : Prop
    extends c.Kept p H s where
  explained : ∀ r ∈ s.drops, c.Destroys H r
  anticipated : c.Anticipates H s.drops

variable {H H' : List Station} {e : Event} {start : Session}

lemma Destroys.mono (h : c.Destroys H r) (hsub : H ⊆ H') : c.Destroys H' r := by
  obtain ⟨x, hx, X, hX, hname, hdecl, hpos | ⟨e, u, hu, he⟩⟩ := h
  · exact ⟨x, hx, X, hX, hname, hdecl, .inl hpos⟩
  · exact ⟨x, hx, X, hX, hname, hdecl, .inr ⟨e, u, hsub hu, he⟩⟩

lemma drops_finishScope (hnests : c.tree.Nests c.function.events) {S : Scope}
    (hS : S ∈ c.tree.scopes)
    (h : c.finishScope S s = .ok s') (H : List Station) (hr : r ∈ s'.drops) :
    r ∈ s.drops ∨ c.Destroys H r := by
  refine ((mem_drops_finishScope h).mp hr).imp_right fun ⟨_, b, hb, hdrop⟩ => ?_
  obtain ⟨hb, howner⟩ := hnests.owner?_of_mem hS hb
  obtain ⟨hname, hdecl, hpos⟩ := Flow.dropOf?_eq_some hdrop
  exact ⟨b, hb, S, howner, hname, hdecl, .inl hpos⟩

/-! ### Statements and arms -/

/-- Whether a record is made when the execution of an event leaves the function. -/
def Abandons (c : Context) (e : Event) (start : Session) (r : Drop) : Prop :=
  e.isReturn = true ∧ ∃ m, c.Acts e start start m ∧
    ∃ S ∈ m.scopes, ∃ b ∈ c.tree.bindingsOf S.id, m.flow.dropOf? e.pos b = some r

/-- Records of destructions are not taken back, and new ones are made when the function is left. -/
lemma Acts.drops (h : c.Acts e start s s') (hs : c.Acts e start start s) :
    s.drops ⊆ s'.drops ∧ ∀ r ∈ s'.drops, r ∈ s.drops ∨ c.Abandons e start r := by
  have hsame : ∀ {u v : Session}, v.drops = u.drops →
      u.drops ⊆ v.drops ∧ ∀ r ∈ v.drops, r ∈ u.drops ∨ c.Abandons e start r := by
    intro u v huv
    rw [huv]
    exact ⟨List.Subset.refl _, fun r hr => .inl hr⟩
  induction h with
  | aside h => exact hsame h.drops
  | begin s loc => exact hsame rfl
  | @refuse s q f hq hf =>
    refine hsame ?_
    unfold Session.report
    split <;> rfl
  | mark s hb hst => exact hsame rfl
  | move span ht hp hm => exact hsame hm.drops
  | write ht hm => exact hsame hm.drops
  | leave s he =>
    refine ⟨fun r hr => mem_drops_leaveFunction.mpr (.inl hr), fun r hr => ?_⟩
    exact (mem_drops_leaveFunction.mp hr).imp_right fun hr => ⟨he, s, hs, hr⟩
  | trans h₁ _ ih ih' =>
    obtain ⟨hsub, hnew⟩ := ih hs
    obtain ⟨hsub', hnew'⟩ := ih' (hs.trans h₁)
    exact ⟨fun r hr => hsub' (hsub hr), fun r hr => (hnew' r hr).elim (hnew r) .inr⟩

lemma Underway.dropOf?_later {f : Flow} (h : c.Underway e H f) {x : Binding}
    (hx : e.pos < x.declaredAt) : f.dropOf? e.pos x = some (.ofBinding x e.pos) := by
  refine Flow.dropOf?_of_unrecorded (fun q st hq => ?_) e.pos
  rintro rfl
  have hlt := (h.states q st hq).1.alive.earlier
  omega

lemma Kept.scopes_acts (h : c.Kept e.pos H s) (hacts : c.Acts e s s s') (S : Scope) :
    S ∈ s'.scopes ↔ S ∈ c.tree.scopes ∧ S.UpTo e.pos := by
  have hscopes : s'.scopes = s.scopes := congrArg Prod.fst hacts.frame.1
  rw [hscopes, h.scopes]

section Step

variable (hnests : c.tree.Nests c.function.events) (he : e ∈ c.function.skeleton.events)
  (hk : e.kind = .step)

include hnests he hk

lemma Kept.destroys (h : c.Kept e.pos H s) (hret : s.flow.returned = false)
    (hr : c.Abandons e s r) :
    c.Destroys (H ++ [.visit e s]) r := by
  obtain ⟨he', m, hm, S, hS, b, hb, hdrop⟩ := hr
  obtain ⟨hS, hstart, hstop⟩ := (h.scopes_acts hm S).mp hS
  obtain ⟨hb, howner⟩ := hnests.owner?_of_mem hS hb
  obtain ⟨hname, hdecl, hpos⟩ := Flow.dropOf?_eq_some hdrop
  have hne := hnests.stop_ne (c.function.mem_events_of_skeleton he) (by simp [hk]) hS
  refine ⟨b, hb, S, howner, hname, hdecl, .inr ⟨e, s, ?_, he', by omega, by omega, by omega,
    fun hlater => ?_⟩⟩
  · exact mem_append_right _ mem_cons_self
  · rw [hpos] at hlater ⊢
    have hwhole := (h.acts hnests he hk hret hm).1.dropOf?_later hlater
    exact Option.mem_unique hdrop hwhole

lemma Kept.mem_drops_return (h : c.Kept e.pos H s) (hret : s.flow.returned = false)
    (he' : e.isReturn = true) (hexec : c.execute e s = .ok s') {x : Binding}
    (hx : x ∈ c.tree.bindings)
    (hopen : c.tree.OpenAt x.scope e.pos) (hlater : e.pos < x.declaredAt) :
    .ofBinding x e.pos ∈ s'.drops := by
  obtain ⟨m, hm, rfl⟩ := execute_return he' hexec
  obtain ⟨X, hX, hstart, hstop⟩ := hopen
  have hXm : X ∈ m.scopes := (h.scopes_acts hm X).mpr ⟨mem_of_getElem? hX, hstart, hstop.le⟩
  refine mem_drops_leaveFunction.mpr (.inr ⟨X, hXm, x, ?_, ?_⟩)
  · exact mem_filter.mpr ⟨hx, decide_eq_true (hnests.known _ X hX).1.symm⟩
  · exact (h.acts hnests he hk hret hm).1.dropOf?_later hlater

lemma Accounted.step (h : c.Accounted e.pos H s) (hret : s.flow.returned = false)
    (hexec : c.execute e s = .ok s') : c.Accounted (e.pos + 1) (H ++ [.visit e s]) s' := by
  obtain ⟨hsub, hnew⟩ := (acts_execute hk hexec).drops (.refl s)
  refine ⟨h.toKept.step hnests he hk hret hexec, fun r hr => ?_,
    fun e' u hu he' x hx hopen hlater => ?_⟩
  · rcases hnew r hr with hr | hr
    · exact (h.explained r hr).mono (subset_append_left _ _)
    · exact h.destroys hnests he hk hret hr
  · rcases mem_append.mp hu with hu | hu
    · exact hsub (h.anticipated e' u hu he' x hx hopen hlater)
    · cases mem_singleton.mp hu
      exact h.mem_drops_return hnests he hk hret he' hexec hx hopen hlater

end Step

lemma Accounted.append {p p' : Int} {st : Station} (h : c.Accounted p H s)
    (hkept : c.Kept p' (H ++ [st]) s') (hst : ∀ e u, st = .visit e u → e.isReturn = false)
    (hnew : ∀ r ∈ s'.drops, r ∈ s.drops ∨ c.Destroys (H ++ [st]) r)
    (hold : ∀ r ∈ s.drops, r ∈ s'.drops) : c.Accounted p' (H ++ [st]) s' := by
  refine ⟨hkept, fun r hr => ?_, fun e u hu he x hx hopen hlater => ?_⟩
  · rcases hnew r hr with hr | hr
    · exact (h.explained r hr).mono (subset_append_left _ _)
    · exact hr
  · rcases mem_append.mp hu with hu | hu
    · exact hold _ (h.anticipated e u hu he x hx hopen hlater)
    · rw [hst e u (mem_singleton.mp hu).symm] at he
      cases he

variable (hnests : c.tree.Nests c.function.events)

include hnests

/-- Every step of a walk leaves its records of destructions explained. -/
theorem maintains_accounted : c.Maintains c.Accounted where
  step he hk hret h hexec := h.step hnests he hk hret hexec
  enter := by
    intro e H s s' he hk h hexec
    have hkept := h.toKept.enter hnests he hk hexec
    obtain ⟨scope, -, rfl⟩ := execute_enter hk hexec
    refine h.append hkept ?_ (fun r hr => .inl hr) fun r hr => hr
    rintro _ _ ⟨⟩
    simp [Event.isReturn, hk]
  exit := by
    intro e H H₀ s₀ s s' he hk h₀ htail hup h hexec
    have hkept := h.toKept.exit hnests he hk h₀.toKept htail hup hexec
    obtain ⟨S, hS, -, m, hm, rfl⟩ := exists_finished hnests he hk hexec
    refine h.append hkept ?_ (fun r hr => drops_finishScope hnests hS hm _ hr)
      fun r hr => (mem_drops_finishScope hm).mpr (.inl hr)
    rintro _ _ ⟨⟩
    simp [Event.isReturn, hk]
  finish pos h :=
    h.append ((maintains_kept hnests).finish pos h.toKept) (fun e u heq => nomatch heq)
    (fun r hr => .inl hr) fun r hr => hr
  shift hup halive hback h :=
    ⟨(maintains_kept hnests).shift hup halive hback h.toKept, h.explained, h.anticipated⟩
  resume h h' :=
    ⟨(maintains_kept hnests).resume h.toKept h'.toKept, h'.explained, h'.anticipated⟩
  merge hf hg := ⟨(maintains_kept hnests).merge hf.toKept hg.toKept, hf.explained, hf.anticipated⟩
  replay n h := ⟨(maintains_kept hnests).replay n h.toKept, h.explained, h.anticipated⟩

/-! ### Whole functions -/

lemma accounted_log (h : c.initial = .ok s) :
    Carries c.tree c.Accounted [] c.log (c.function.skeleton.walk c s) c.function.stop := by
  refine (maintains_accounted hnests).carries_log hnests h ⟨kept_initial hnests h, ?_, ?_⟩
  · obtain ⟨root, -, rfl⟩ := map_eq_ok.mp h
    rw [start_eq]
    intro r hr
    cases hr
  · exact fun e u hu => nomatch hu

lemma accounted_run (h : c.run = .ok s) :
    (∀ r ∈ s.drops, c.Destroys c.log r) ∧ c.Anticipates c.log s.drops := by
  obtain ⟨s₀, s₁, h₀, h₁, hexit⟩ := run_cases h
  have hacc : c.Accounted c.function.stop c.log s₁ := (accounted_log hnests h₀).last s₁ h₁
  have hend : Event.exit 0 c.function.stop .function ∈ c.function.events :=
    mem_cons_of_mem _ (mem_append_right _ mem_cons_self)
  obtain ⟨S, hS, -, m, hm, rfl⟩ := exists_finished hnests hend rfl hexit
  constructor
  · intro r hr
    exact (drops_finishScope hnests hS hm c.log hr).elim (hacc.explained r) id
  · intro e u hu he x hx hopen hlater
    exact (mem_drops_finishScope hm).mpr (.inl (hacc.anticipated e u hu he x hx hopen hlater))

omit hnests in
lemma mem_visited_iff (hc : c.tracksLoans = true) (hr : c.replays = 1) (h : c.run = .ok s) :
    e ∈ c.function.skeleton.visited ↔ ∃ u, .visit e u ∈ c.log := by
  obtain ⟨s₀, s₁, h₀, h₁, -⟩ := run_cases h
  rw [← Skeleton.map_fst_visits hc hr _ h₁ (initial_fields h₀).2.1, ← Skeleton.filterMap_log,
    log, h₀,
    Fault.seen_ok]
  constructor
  · intro he
    obtain ⟨⟨e', u⟩, hu, rfl⟩ := mem_map.mp he
    obtain ⟨st, hst, hvisit⟩ := mem_filterMap.mp hu
    cases st with
    | visit e u' =>
      cases hvisit
      exact ⟨u, hst⟩
    | finish pos u' => cases hvisit
  · rintro ⟨u, hu⟩
    exact mem_map.mpr ⟨(e, u), mem_filterMap.mpr ⟨_, hu, rfl⟩, rfl⟩

lemma declaredAt_ne_return (he : e ∈ c.function.events) (hret : e.isReturn = true) {x : Binding}
    (hx : x ∈ c.tree.bindings) : x.declaredAt ≠ e.pos := by
  intro hpos
  unfold Event.isReturn at hret
  split at hret
  · rename_i value loc hk hn
    have hmem : x ∈ c.tree.declaredBy e.pos := (hnests.mem_declaredBy_iff he hk).mpr ⟨hx, hpos⟩
    obtain ⟨scope, index, hd⟩ := hnests.declares e he hk
    rw [hnests.numbered.labelled e he (by simp [hk]), hn] at hd
    rw [hd] at hmem
    cases hmem
  · cases hret

end Context

variable {program : Program} {f : Function} {options : Options} {report : Report}

lemma Program.run_of_analyzeFunction (h : program.analyzeFunction f options = .ok report) :
    ∃ c s, Context.build program.warm f options = .ok c ∧ c.run = .ok s ∧ report.tree = c.tree ∧
      report.drops = s.drops := by
  obtain ⟨c, hbuild, hreport⟩ := Program.analyzeFunction_eq_ok.mp h
  obtain ⟨⟨s, streams⟩, hstreams, hreport⟩ := bind_eq_ok.mp hreport
  cases hreport
  obtain ⟨s', hrun, hstreams⟩ := bind_eq_ok.mp hstreams
  refine ⟨c, s, hbuild, ?_, rfl, rfl⟩
  split at hstreams
  · obtain ⟨coverage, -, hstreams⟩ := bind_eq_ok.mp hstreams
    cases hstreams
    exact hrun
  · cases hstreams
    exact hrun

namespace Report

/-- A function destroys a binding at the end of the scope that owns it or at a return inside that
scope. What it destroys without having declared it is exactly what the scopes that are open at a
return declare behind the return. -/
theorem drops_inside_owner_and_undeclared_iff
    (h : program.analyzeFunction f options = .ok report) :
    (∀ r ∈ report.drops, ∃ x ∈ report.tree.bindings, ∃ X, report.tree.owner? x = some X ∧
      r.binding = x.name ∧ r.declaredAt = x.declaredAt ∧
      (r.pos = X.stop ∨ ∃ e ∈ f.skeleton.visited, e.isReturn = true ∧ e.pos = r.pos ∧
        X.start < r.pos ∧ r.pos < X.stop)) ∧
    ∀ r, r ∈ report.drops ∧ ¬r.declaredAt < r.pos ↔
      ∃ e ∈ f.skeleton.visited, e.isReturn = true ∧ ∃ x ∈ report.tree.bindings,
        report.tree.OpenAt x.scope e.pos ∧ e.pos < x.declaredAt ∧ r = .ofBinding x e.pos := by
  obtain ⟨c, s, hbuild, hrun, htree, hdrops⟩ := Program.run_of_analyzeFunction h
  obtain ⟨hc, hr, rfl⟩ := Context.build_fields hbuild
  have hnests := Context.nests_of_build hbuild
  obtain ⟨hexplained, hanticipated⟩ := Context.accounted_run hnests hrun
  have hvisited : ∀ {e : Event}, e ∈ c.function.skeleton.visited ↔ ∃ u, .visit e u ∈ c.log :=
    Context.mem_visited_iff hc hr hrun
  rw [htree, hdrops]
  constructor
  · intro r hrec
    obtain ⟨x, hx, X, hX, hname, hdecl, hpos | ⟨e, u, hu, he, hpos, hstart, hstop, -⟩⟩ :=
      hexplained r hrec
    · exact ⟨x, hx, X, hX, hname, hdecl, .inl hpos⟩
    · exact ⟨x, hx, X, hX, hname, hdecl, .inr ⟨e, hvisited.mpr ⟨u, hu⟩, he, hpos, hstart, hstop⟩⟩
  · intro r
    constructor
    · rintro ⟨hrec, hnot⟩
      obtain ⟨x, hx, X, hX, -, hdecl, hpos | ⟨e, u, hu, he, hpos, hstart, hstop, hwhole⟩⟩ :=
        hexplained r hrec
      · -- At the end of its scope a binding has been declared.
        obtain ⟨X', -, hX', -, -, -, hinside⟩ := hnests.exists_owner hx
        obtain rfl := Option.mem_unique hX hX'
        omega
      · have hmem := c.function.mem_events_of_skeleton
          (Skeleton.mem_events_of_visited _ (hvisited.mpr ⟨u, hu⟩))
        have hne := Context.declaredAt_ne_return hnests hmem he hx
        refine ⟨e, hvisited.mpr ⟨u, hu⟩, he, x, hx, ⟨X, hX, ?_, ?_⟩, by omega, ?_⟩
        · exact hpos ▸ hstart
        · exact hpos ▸ hstop
        · rw [hpos]
          exact hwhole (by omega)
    · rintro ⟨e, he, hret, x, hx, hopen, hlater, rfl⟩
      obtain ⟨u, hu⟩ := hvisited.mp he
      exact ⟨hanticipated e u hu hret x hx hopen hlater, not_lt.mpr hlater.le⟩

end Report

/-- Returns in a branch before it declares `x`. -/
def Function.early : Function where
  name := "early"
  params := [⟨"c", some ⟨2⟩, false, .unknown⟩]
  body := .mk [.branch (.var "c" .unknown) (.mk [.ret .absent .unknown] .unknown) none .unknown,
    .declare "x" none (.literal (.text "a") .unknown) false .unknown] .unknown

namespace Report

/-- The return destroys `c`, which is declared, and `x`, which is declared behind it; at its end the
function destroys both. -/
theorem drops_inside_owner_and_undeclared_iff_early : ∃ report,
    Program.analyzeFunction { types := .texts } .early {} = .ok report ∧
    report.drops = [⟨"x", 6, 4, false, []⟩, ⟨"c", 1, 4, false, []⟩, ⟨"x", 6, 7, false, []⟩,
      ⟨"c", 1, 7, false, []⟩] ∧
    (∀ r ∈ report.drops, ∃ x ∈ report.tree.bindings, ∃ X, report.tree.owner? x = some X ∧
      r.binding = x.name ∧ r.declaredAt = x.declaredAt ∧
      (r.pos = X.stop ∨ ∃ e ∈ Function.early.skeleton.visited, e.isReturn = true ∧ e.pos = r.pos ∧
        X.start < r.pos ∧ r.pos < X.stop)) ∧
    ∃ e ∈ Function.early.skeleton.visited, e.isReturn = true ∧ ∃ x ∈ report.tree.bindings,
      report.tree.OpenAt x.scope e.pos ∧ e.pos < x.declaredAt ∧
        ⟨"x", 6, 4, false, []⟩ = Drop.ofBinding x e.pos := by
  have hok : ((Program.analyzeFunction { types := .texts } .early {}).toOption.any fun report =>
      decide (report.drops = [⟨"x", 6, 4, false, []⟩, ⟨"c", 1, 4, false, []⟩,
        ⟨"x", 6, 7, false, []⟩,
        ⟨"c", 1, 7, false, []⟩])) = true := by
    decide +kernel
  cases hreport : Program.analyzeFunction { types := .texts } .early {} with
  | error failure =>
    rw [hreport] at hok
    cases hok
  | ok report =>
    rw [hreport] at hok
    have hdrops := of_decide_eq_true hok
    obtain ⟨hinside, hundeclared⟩ := drops_inside_owner_and_undeclared_iff hreport
    refine ⟨report, rfl, hdrops, hinside, (hundeclared _).mp ⟨?_, by decide⟩⟩
    rw [hdrops]
    exact mem_cons_self

/-- A return in front of a declaration destroys what is declared there. -/
theorem undeclared_drop_early : ∃ report,
    Program.analyzeFunction { types := .texts } .early {} = .ok report ∧
    ∃ r ∈ report.drops, ¬r.declaredAt < r.pos := by
  have hok : ((Program.analyzeFunction { types := .texts } .early {}).toOption.any fun report =>
      decide (∃ r ∈ report.drops, ¬r.declaredAt < r.pos)) = true := by
    decide +kernel
  cases hreport : Program.analyzeFunction { types := .texts } .early {} with
  | error failure =>
    rw [hreport] at hok
    cases hok
  | ok report =>
    rw [hreport] at hok
    exact ⟨report, rfl, of_decide_eq_true hok⟩

end Report

end Ownership
