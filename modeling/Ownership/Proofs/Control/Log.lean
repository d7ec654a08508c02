import Ownership.Proofs.Control.Frames
import Ownership.Proofs.Control.Visits

/-!
# The log of a walk

The log of a walk lists what the walk comes past: the events that it executes and the ends of
statements, in its order and each with the session there. A walk that fails has a log up to its
failure. What every single step of a walk maintains holds all along the log, and at the end if the
walk completes.
-/

namespace Ownership

open Fault List

/-- What a walk comes past. -/
inductive Station where
  /-- An event, with the session that it meets. -/
  | visit (e : Event) (s : Session)
  /-- The end of the statement at a position, with the session that the statement leaves. -/
  | finish (pos : Int) (s : Session)

namespace Station

/-- The session at a station. -/
def session : Station → Session
  | visit _ s | finish _ s => s

def visit? : Station → Option (Event × Session)
  | visit e s => some (e, s)
  | finish .. => none

def snapshot? : Station → Option Snapshot
  | visit .. => none
  | finish pos s => some { pos, replay := s.replay, flow := s.flow, loans := s.loans }

end Station

namespace Skeleton

def relog (again : Session → Except Fault Session) (see : Session → List Station) :
    Nat → Flow → Session → List Station
  | 0, _, _ => []
  | n + 1, joined, s =>
    let j := { s with flow := joined, replay := s.replay + 1 }
    see j ++ seen (again j) fun s' =>
      relog again see n (joined.merge s'.flow) { s' with replay := s.replay }

def log (c : Context) : Skeleton → Session → List Station
  | done, _ => []
  | event e, s => [.visit e s]
  | scope start stop node kind body, s =>
    [.visit (.enter start node kind) s] ++
    seen (c.execute (.enter start node kind) s) fun m =>
      body.log c m ++ seen (body.walk c m) fun m' => [.visit (.exit start stop node) m']
  | noted pos k, s => k.log c s ++ seen (k.walk c s) fun m => [.finish pos m]
  | seq k l, s =>
    k.log c s ++ seen (k.walk c s) fun m => if m.flow.returned then [] else l.log c m
  | fork k l, s =>
    k.log c s ++ seen (k.walk c s) fun s₁ => l.log c (s₁.withFlow s.flow)
  | loop pos test body loc inner, s =>
    [.visit (.test pos test body loc) s] ++
    seen (c.execute (.test pos test body loc) s) fun m =>
      inner.log c m ++ seen (inner.walk c m) fun s₁ =>
        relog (fun s => c.execute (.test pos test body loc) s >>= inner.walk c)
          (fun s => [.visit (.test pos test body loc) s] ++
            seen (c.execute (.test pos test body loc) s) (inner.log c))
          c.replays (m.flow.merge s₁.flow) s₁

end Skeleton

/-- What the walk of a function comes past in the body. -/
def Context.log (c : Context) : List Station :=
  seen c.initial (c.function.skeleton.log c)

/-! ### Visits in the log -/

lemma Fault.filterMap_seen {α β γ : Type} (x : Except Fault α) (f : α → List β) (g : β → Option γ) :
    (seen x f).filterMap g = seen x fun a => (f a).filterMap g := by
  cases x <;> rfl

namespace Skeleton

variable {c : Context}

lemma filterMap_relog {again : Session → Except Fault Session} {see : Session → List Station}
    {see' : Session → List (Event × Session)} (h : ∀ s, (see s).filterMap Station.visit? = see' s)
    (n : Nat) (joined : Flow) (s : Session) :
    (relog again see n joined s).filterMap Station.visit? = revisits again see' n joined s := by
  induction n generalizing joined s with
  | zero => rfl
  | succ n ih => simp only [relog, revisits, filterMap_append, filterMap_seen, h, ih]

/-- The visits in the log are those of the walk. -/
theorem filterMap_log (k : Skeleton) (s : Session) :
    (k.log c s).filterMap Station.visit? = k.visits c s := by
  induction k generalizing s with
  | done => rfl
  | event e => rfl
  | scope start stop node kind body ih =>
    simp only [log, visits, filterMap_append, filterMap_seen, ih]
    rfl
  | noted pos k ih =>
    have hnone : ∀ m : Session, [Station.finish pos m].filterMap Station.visit? = [] := fun _ => rfl
    have hseen : seen (k.walk c s) (fun _ => ([] : List (Event × Session))) = [] := by
      cases k.walk c s <;> rfl
    simp only [log, visits, filterMap_append, filterMap_seen, ih, hnone, hseen,
      append_nil]
  | seq k l ihk ihl =>
    have hsecond : ∀ m : Session, (if m.flow.returned = true then [] else l.log c m).filterMap
        Station.visit? = if m.flow.returned = true then [] else l.visits c m := by
      intro m
      split
      · rfl
      · exact ihl m
    simp only [log, visits, filterMap_append, filterMap_seen, ihk, hsecond]
  | fork k l ihk ihl =>
    simp only [log, visits, filterMap_append, filterMap_seen, ihk, ihl]
  | loop pos test body loc inner ih =>
    have hround : ∀ m : Session, ([Station.visit (.test pos test body loc) m] ++
        seen (c.execute (.test pos test body loc) m) (inner.log c)).filterMap Station.visit? =
          (.test pos test body loc, m) ::
            seen (c.execute (.test pos test body loc) m) (inner.visits c) := by
      intro m
      simp only [filterMap_append, filterMap_seen, ih]
      rfl
    simp only [log, visits, filterMap_append, filterMap_seen, ih, filterMap_relog hround]
    rfl

end Skeleton

/-! ### What a walk gathers -/

namespace Skeleton

variable {c : Context} {β : Type} {φ : Session → List β} {step : Station → List β} {s s' : Session}
  {again : Session → Except Fault Session} {joined : Flow}

lemma gathered_replayLoop (hφ : ∀ s f n, φ { s with flow := f, replay := n } = φ s)
    {see : Session → List Station}
    (h : ∀ {s s'}, again s = .ok s' → φ s' = φ s ++ (see s).flatMap step) (n : Nat)
    (hs : Context.replayLoop again n joined s = .ok s') :
    φ s' = φ s ++ (relog again see n joined s).flatMap step := by
  induction n generalizing joined s with
  | zero =>
    cases hs
    exact (hφ s joined s.replay).trans (append_nil _).symm
  | succ n ih =>
    obtain ⟨m, hm, hs⟩ := bind_eq_ok.mp hs
    have hrest := ih hs
    rw [hφ m m.flow s.replay, h hm, hφ s joined (s.replay + 1)] at hrest
    rw [hrest, relog, hm, seen_ok, flatMap_append, append_assoc]

/-- What the stations of a walk add to a list is what the walk adds to it, if nothing else does. -/
theorem gathered_log (hφ : ∀ s f n, φ { s with flow := f, replay := n } = φ s)
    (hfinish : ∀ s pos, φ (s.snapshot pos) = φ s ++ step (.finish pos s)) (k : Skeleton)
    (hvisit : ∀ e ∈ k.events, ∀ {s s'}, c.execute e s = .ok s' → φ s' = φ s ++ step (.visit e s))
    (h : k.walk c s = .ok s') : φ s' = φ s ++ (k.log c s).flatMap step := by
  induction k generalizing s s' with
  | done =>
    cases h
    exact (append_nil _).symm
  | event e =>
    rw [log, flatMap_singleton]
    exact hvisit e mem_cons_self h
  | scope start stop node kind body ih =>
    obtain ⟨m, hm, h⟩ := bind_eq_ok.mp h
    obtain ⟨m', hm', h⟩ := bind_eq_ok.mp h
    obtain ⟨henter, hbody, hexit⟩ := forall_events_scope hvisit
    rw [log, hm, seen_ok, hm', seen_ok, hexit h, ih hbody hm', henter hm]
    simp only [flatMap_append, flatMap_singleton, append_assoc]
  | noted pos k ih =>
    obtain ⟨m, hm, h⟩ := bind_eq_ok.mp h
    cases h
    rw [log, hm, seen_ok, hfinish, ih hvisit hm, flatMap_append, flatMap_singleton,
      append_assoc]
  | seq k l ihk ihl =>
    obtain ⟨m, hm, h⟩ := bind_eq_ok.mp h
    obtain ⟨hk, hl⟩ := forall_mem_append.mp hvisit
    rw [log, hm, seen_ok, flatMap_append, ← append_assoc, ← ihk hk hm]
    split at h
    · rename_i hret
      rw [if_pos hret, ← Except.ok.inj h]
      exact (append_nil _).symm
    · rename_i hret
      rw [if_neg hret]
      exact ihl hl h
  | fork k l ihk ihl =>
    obtain ⟨s₁, h₁, h⟩ := bind_eq_ok.mp h
    obtain ⟨s₂, h₂, h⟩ := bind_eq_ok.mp h
    cases h
    obtain ⟨hk, hl⟩ := forall_mem_append.mp hvisit
    have hsecond := ihl hl h₂
    have hresumed : φ (s₁.withFlow s.flow) = φ s₁ := hφ s₁ s.flow s₁.replay
    rw [log, h₁, seen_ok, flatMap_append, ← append_assoc, ← ihk hk h₁, ← hresumed,
      ← hsecond]
    exact hφ s₂ _ s₂.replay
  | loop pos test body loc inner ih =>
    obtain ⟨m, hm, h⟩ := bind_eq_ok.mp h
    obtain ⟨s₁, h₁, h⟩ := bind_eq_ok.mp h
    obtain ⟨htest, hinner⟩ := forall_mem_cons.mp hvisit
    have hround : ∀ {u v}, (c.execute (.test pos test body loc) u >>= inner.walk c) = .ok v →
        φ v = φ u ++ ([Station.visit (.test pos test body loc) u] ++
          seen (c.execute (.test pos test body loc) u) (inner.log c)).flatMap step := by
      intro u v huv
      obtain ⟨w, hw, huv⟩ := bind_eq_ok.mp huv
      rw [ih hinner huv, htest hw, hw, seen_ok, flatMap_append, flatMap_singleton,
        append_assoc]
    rw [gathered_replayLoop hφ hround c.replays h, ih hinner h₁, htest hm, log, hm,
      seen_ok, h₁,
      seen_ok]
    simp only [flatMap_append, flatMap_singleton, append_assoc]

/-- A walk takes a snapshot at the end of each statement in its log. -/
theorem trace_walk (k : Skeleton) (h : k.walk c s = .ok s') :
    s'.trace = s.trace ++ (k.log c s).filterMap Station.snapshot? := by
  rw [filterMap_eq_flatMap_toList]
  refine gathered_log (fun _ _ _ => rfl) (fun _ _ => rfl) k (fun e _ s s' h => ?_) h
  exact (Context.trace_execute h).trans (append_nil _).symm

lemma scopes_replayLoop (h : ∀ {s s'}, again s = .ok s' → s'.scopes = s.scopes) (n : Nat)
    (hs : Context.replayLoop again n joined s = .ok s') : s'.scopes = s.scopes := by
  induction n generalizing joined s with
  | zero =>
    cases hs
    rfl
  | succ n ih =>
    obtain ⟨m, hm, hs⟩ := bind_eq_ok.mp hs
    have hfirst := h hm
    exact (ih hs).trans hfirst

/-- A walk leaves the scopes that it enters. -/
theorem scopes_walk {k : Skeleton} {sel : Option Selection} (hk : k.Framed sel)
    (h : k.walk c s = .ok s') : s'.scopes = s.scopes := by
  have hstep : ∀ {e : Event} {u v : Session}, e.kind = .step → c.execute e u = .ok v →
      v.scopes = u.scopes :=
    fun hk h => congrArg Prod.fst (Context.acts_execute hk h).frame.1
  induction k generalizing sel s s' with
  | done =>
    cases h
    rfl
  | event e => exact hstep hk.1 h
  | scope start stop node kind body ih =>
    obtain ⟨m, hm, h⟩ := bind_eq_ok.mp h
    obtain ⟨m', hm', hexit⟩ := bind_eq_ok.mp h
    obtain ⟨S, -, rfl⟩ := Context.execute_enter rfl hm
    obtain ⟨S', u, -, hu, rfl⟩ := Context.execute_exit rfl hexit
    have hfinish : u.scopes = m'.scopes := congrArg Prod.fst (Context.frame_finishScope hu).1
    rw [Session.close, hfinish, ih hk hm']
    rfl
  | noted pos k ih =>
    obtain ⟨m, hm, h⟩ := bind_eq_ok.mp h
    cases h
    have hinner := ih hk.1 hm
    exact hinner
  | seq k l ihk ihl =>
    obtain ⟨m, hm, h⟩ := bind_eq_ok.mp h
    split at h
    · cases h
      exact ihk hk.1 hm
    · exact (ihl hk.2 h).trans (ihk hk.1 hm)
  | fork k l ihk ihl =>
    obtain ⟨s₁, h₁, h⟩ := bind_eq_ok.mp h
    obtain ⟨s₂, h₂, h⟩ := bind_eq_ok.mp h
    cases h
    have hfirst := ihk hk.1.2 h₁
    have hsecond := ihl hk.2.2 h₂
    exact hsecond.trans hfirst
  | loop pos test body loc inner ih =>
    obtain ⟨m, hm, h⟩ := bind_eq_ok.mp h
    obtain ⟨s₁, h₁, h⟩ := bind_eq_ok.mp h
    have hround : ∀ {u v}, (c.execute (.test pos test body loc) u >>= inner.walk c) = .ok v →
        v.scopes = u.scopes := by
      intro u v huv
      obtain ⟨w, hw, huv⟩ := bind_eq_ok.mp huv
      exact (ih hk.2 huv).trans (hstep rfl hw)
    rw [scopes_replayLoop hround c.replays h, ih hk.2 h₁, hstep rfl hm]

end Skeleton

/-! ### Invariants -/

/-- Whether a property holds at a station after a log. Behind a statement the same scopes are open
as before it. -/
def Station.Holds (t : ScopeTree) (I : Int → List Station → Session → Prop) (H : List Station) :
    Station → Prop
  | visit e s => I e.pos H s
  | finish pos s => ∃ p, pos < p ∧ (∀ S ∈ t.scopes, S.UpTo p ↔ S.UpTo pos) ∧ I p H s

/-- Whether a property holds at every station of a log that goes on from another one. -/
def Along (t : ScopeTree) (I : Int → List Station → Session → Prop) :
    List Station → List Station → Prop
  | _, [] => True
  | H, st :: l => st.Holds t I H ∧ Along t I (H ++ [st]) l

section

variable {t : ScopeTree} {I : Int → List Station → Session → Prop} {H l l' : List Station}

lemma along_append : Along t I H (l ++ l') ↔ Along t I H l ∧ Along t I (H ++ l) l' := by
  induction l generalizing H with
  | nil => simp [Along]
  | cons st l ih => simp [Along, ih, and_assoc]

lemma Along.holds {st : Station} (h : Along t I H (l ++ st :: l')) : st.Holds t I (H ++ l) :=
  (along_append.mp h).2.1

/-- Whether a property holds all along a log and, if what is logged completes, behind it. -/
structure Carries (t : ScopeTree) (I : Int → List Station → Session → Prop) (H l : List Station)
    (x : Except Fault Session) (p : Int) : Prop where
  along : Along t I H l
  last : ∀ s, x = .ok s → I p (H ++ l) s

variable {x : Except Fault Session} {s : Session} {p q : Int}

lemma Carries.stay (h : I p H s) : Carries t I H [] (.ok s) p := by
  refine ⟨trivial, fun s' hs' => ?_⟩
  rw [append_nil, ← Except.ok.inj hs']
  exact h

lemma Carries.then {see : Session → List Station} {y : Session → Except Fault Session}
    (h : Carries t I H l x p)
    (h' : ∀ m, I p (H ++ l) m → x = .ok m → Carries t I (H ++ l) (see m) (y m) q) :
    Carries t I H (l ++ seen x see) (x >>= y) q := by
  cases hx : x with
  | error fault =>
    refine ⟨along_append.mpr ⟨h.along, trivial⟩, fun s hs => ?_⟩
    cases hs
  | ok m =>
    obtain ⟨halong, hlast⟩ := h' m (h.last m hx) hx
    refine ⟨along_append.mpr ⟨h.along, halong⟩, fun s hs => ?_⟩
    rw [← append_assoc]
    exact hlast s hs

lemma Carries.map {g : Session → Session} (h : Carries t I H l x p)
    (h' : ∀ m, I p (H ++ l) m → x = .ok m → I q (H ++ l) (g m)) :
    Carries t I H l (x >>= fun m => pure (g m)) q := by
  refine ⟨h.along, fun s hs => ?_⟩
  obtain ⟨m, hm, hs⟩ := bind_eq_ok.mp hs
  rw [← Except.ok.inj hs]
  exact h' m (h.last m hm) hm

end

namespace Context

/-- Whether each step of the walk of a function maintains a property. `I p H s` speaks of a session
`s` before position `p`, after the log `H`. -/
structure Maintains (c : Context) (I : Int → List Station → Session → Prop) : Prop where
  step : ∀ {e : Event} {H : List Station} {s s' : Session}, e ∈ c.function.skeleton.events →
    e.kind = .step → s.flow.returned = false → I e.pos H s → c.execute e s = .ok s' →
    I (e.pos + 1) (H ++ [.visit e s]) s'
  enter : ∀ {e : Event} {H : List Station} {s s' : Session}, e ∈ c.function.events →
    e.kind = .enter → I e.pos H s → c.execute e s = .ok s' → I (e.pos + 1) (H ++ [.visit e s]) s'
  /-- When a scope is left, the stack is again as it was when the scope was entered. -/
  exit : ∀ {e : Event} {H H₀ : List Station} {s₀ s s' : Session}, e ∈ c.function.events →
    e.kind = .exit → I e.label H₀ s₀ → s.scopes.tail = s₀.scopes →
    (∀ S ∈ c.tree.scopes, S.UpTo (e.pos + 1) ↔ S.UpTo e.label) → I e.pos H s →
    c.execute e s = .ok s' → I (e.pos + 1) (H ++ [.visit e s]) s'
  finish : ∀ {p : Int} {H : List Station} {s : Session} (pos : Int), I p H s →
    I p (H ++ [.finish pos s]) (s.snapshot pos)
  /-- Positions matter by what is open and alive there; on a path that has returned more may be
  alive. -/
  shift : ∀ {p q : Int} {H : List Station} {s : Session},
    (∀ S ∈ c.tree.scopes, S.UpTo q ↔ S.UpTo p) → (∀ x, c.tree.Alive p x → c.tree.Alive q x) →
    (s.flow.returned = true ∨ ∀ x, c.tree.Alive q x → c.tree.Alive p x) → I p H s → I q H s
  /-- Another way begins with an earlier state. -/
  resume : ∀ {p : Int} {H l : List Station} {s s' : Session}, I p H s → I p (H ++ l) s' →
    I p (H ++ l) (s'.withFlow s.flow)
  merge : ∀ {p : Int} {H : List Station} {s : Session} {f g : Flow}, I p H (s.withFlow f) →
    I p H (s.withFlow g) → I p H (s.withFlow (f.merge g))
  replay : ∀ {p : Int} {H : List Station} {s : Session} (n : Nat), I p H s →
    I p H { s with replay := n }

/-- Whether a property is carried along every walk of a skeleton, from a position to another one. -/
def Carried (c : Context) (I : Int → List Station → Session → Prop) (k : Skeleton) (lo hi : Int) :
    Prop :=
  ∀ ⦃H : List Station⦄ ⦃s : Session⦄, s.flow.returned = false → I lo H s →
    Carries c.tree I H (k.log c s) (k.walk c s) hi

namespace Maintains

variable {c : Context} {I : Int → List Station → Session → Prop} {H : List Station} {lo hi : Int}
  {s : Session} {sel : Option Selection}

variable (h : c.Maintains I)

include h

lemma level {p q : Int} (hl : c.tree.Level p q) (hs : I p H s) : I q H s :=
  h.shift hl.upTo (fun x => (hl.alive x).mpr) (.inr fun x => (hl.alive x).mp) hs

lemma replayLoop (hl : c.tree.Level lo hi) {again : Session → Except Fault Session}
    {see : Session → List Station}
    (hagain : ∀ {H s}, s.flow.returned = false → I lo H s → Carries c.tree I H (see s) (again s) hi)
    (n : Nat) {joined : Flow} (hs : I lo H (s.withFlow joined)) (hret : joined.returned = false) :
    Carries c.tree I H (Skeleton.relog again see n joined s)
      (Context.replayLoop again n joined s) hi := by
  induction n generalizing H joined s with
  | zero => exact .stay (h.level hl hs)
  | succ n ih =>
    have hround := hagain (s := { s with flow := joined, replay := s.replay + 1 }) hret
      (h.replay (s.replay + 1) hs)
    refine hround.then fun m hm _ => ih ?_ ?_
    · have hback : I lo _ m := h.level hl.symm hm
      exact h.replay s.replay (h.merge (h.resume hs hback) hback)
    · rw [Flow.returned_merge, hret, Bool.false_and]

lemma carried_event {e : Event} (he : e ∈ c.function.skeleton.events) (hk : e.kind = .step) :
    c.Carried I (.event e) e.pos (e.pos + 1) :=
  fun _ _ hret hs => ⟨⟨hs, trivial⟩, fun _ hs' => h.step he hk hret hs hs'⟩

lemma carried_scope {start stop : Int} {node : Node} {kind : ScopeKind} {body : Skeleton}
    (hbody : c.Carried I body (start + 1) stop)
    (henter : .enter start node kind ∈ c.function.events)
    (hexit : .exit start stop node ∈ c.function.events) (hk : body.Framed sel)
    (hup : ∀ S ∈ c.tree.scopes, S.UpTo (stop + 1) ↔ S.UpTo start) :
    c.Carried I (.scope start stop node kind body) start (stop + 1) := by
  intro H s hret hs
  refine .then ⟨⟨hs, trivial⟩, fun m hm => h.enter henter rfl hs hm⟩ fun m hm hexec => ?_
  refine (hbody (returned_execute rfl hexec hret) hm).then fun m' hm' hwalk => ?_
  refine ⟨⟨hm', trivial⟩, fun s' hs' => h.exit hexit rfl hs ?_ hup hm' hs'⟩
  obtain ⟨S, -, rfl⟩ := execute_enter rfl hexec
  rw [Skeleton.scopes_walk hk hwalk]
  rfl

lemma carried_fork {k l : Skeleton} {mid : Int} (hk : c.Carried I k lo mid)
    (hl : c.Carried I l mid hi)
    (hlk : c.tree.Level lo mid) (hll : c.tree.Level mid hi) : c.Carried I (.fork k l) lo hi := by
  intro H s hret hs
  refine (hk hret hs).then fun s₁ hs₁ _ => ?_
  have hsecond := hl (s := s₁.withFlow s.flow) hret (h.resume (h.level hlk hs) hs₁)
  refine hsecond.map fun s₂ hs₂ _ => ?_
  exact h.merge (h.resume (h.level hll hs₁) hs₂) hs₂

/-- What its rounds maintain, a loop maintains. -/
lemma carried_loop {pos : Int} {test : Expr} {body : Block} {loc : Span} {inner : Skeleton}
    (htest : .test pos test body loc ∈ c.function.skeleton.events)
    (hinner : c.Carried I inner (pos + 1) hi) (hstart : c.tree.Level pos (pos + 1))
    (hl : c.tree.Level (pos + 1) hi) : c.Carried I (.loop pos test body loc inner) pos hi := by
  have htested : c.Carried I (.event (.test pos test body loc)) pos (pos + 1) :=
    h.carried_event htest rfl
  have hround := hstart.trans hl
  intro H s hret hs
  refine (htested hret hs).then fun m hm hexec => ?_
  have hmret := returned_execute rfl hexec hret
  refine (hinner hmret hm).then fun s₁ hs₁ _ => ?_
  refine h.replayLoop hround (fun hret hs => ?_) c.replays ?_ ?_
  · exact (htested hret hs).then fun m hm hexec => hinner (returned_execute rfl hexec hret) hm
  · have hs₁' : I pos _ s₁ := h.level hround.symm hs₁
    exact h.merge (h.resume (h.level hstart.symm hm) hs₁') hs₁'
  · rw [Flow.returned_merge, hmret, Bool.false_and]

/-- What every step maintains is carried along every walk. -/
theorem walk (hnests : c.tree.Nests c.function.events) {k : Skeleton} (hk : k.Framed sel)
    (hspans : k.Spans lo hi) (hsub : ∀ e ∈ k.events, e ∈ c.function.skeleton.events) :
    c.Carried I k lo hi := by
  have hmem : ∀ e ∈ c.function.skeleton.events, e ∈ c.function.events :=
    fun e he => c.function.mem_events_of_skeleton he
  induction k generalizing sel lo hi with
  | done =>
    obtain rfl : lo = hi := hspans
    exact fun _ _ _ hs => .stay hs
  | event e =>
    obtain ⟨rfl, rfl⟩ := hspans
    exact h.carried_event (hsub e mem_cons_self) hk.1
  | scope start stop node kind body ih =>
    have hup : ∀ S ∈ c.tree.scopes, S.UpTo hi ↔ S.UpTo lo := fun S hS =>
      Skeleton.Framed.upTo_iff (k := .scope start stop node kind body) hk hnests hspans
        (fun e he => hmem e (hsub e he)) hS
    obtain ⟨rfl, rfl, hbody⟩ := hspans
    obtain ⟨henter, hsub, hexit⟩ := Skeleton.forall_events_scope hsub
    exact h.carried_scope (ih hk hbody hsub) (hmem _ henter) (hmem _ hexit) hk hup
  | noted pos k ih =>
    obtain ⟨hk, hpos⟩ := hk
    obtain ⟨rfl, hlt⟩ := hpos lo hi hspans
    intro H s hret hs
    refine (ih hk hspans hsub hret hs).then fun m hm _ => ⟨⟨⟨hi, hlt, ?_, hm⟩, trivial⟩, ?_⟩
    · exact fun S hS => hk.upTo_iff hnests hspans (fun e he => hmem e (hsub e he)) hS
    · intro s' hs'
      rw [← Except.ok.inj hs']
      exact h.finish lo hm
  | seq k l ihk ihl =>
    obtain ⟨mid, hspansk, hspansl⟩ := hspans
    obtain ⟨hsubk, hsubl⟩ := forall_mem_append.mp hsub
    have hsubl' : ∀ e ∈ l.events, e ∈ c.function.events := fun e he => hmem e (hsubl e he)
    intro H s hret hs
    refine (ihk hk.1 hspansk hsubk hret hs).then fun m hm _ => ?_
    cases hmret : m.flow.returned with
    | true =>
      -- What follows is not walked, but the position moves on behind it.
      refine .stay (h.shift (fun S hS => hk.2.upTo_iff hnests hspansl hsubl' hS) (fun x hx => ?_)
        (.inl hmret) hm)
      exact hk.2.alive hnests hspansl hsubl' hx
    | false => exact ihl hk.2 hspansl hsubl hmret hm
  | fork k l ihk ihl =>
    obtain ⟨mid, hspansk, hspansl⟩ := hspans
    obtain ⟨hsubk, hsubl⟩ := forall_mem_append.mp hsub
    obtain ⟨⟨hek, hfk⟩, hel, hfl⟩ := hk
    refine h.carried_fork (ihk hfk hspansk hsubk) (ihl hfl hspansl hsubl) ?_ ?_
    · exact hek.level hfk hnests hspansk fun e he => hmem e (hsubk e he)
    · exact hel.level hfl hnests hspansl fun e he => hmem e (hsubl e he)
  | loop pos test body loc inner ih =>
    obtain ⟨rfl, -, hspans⟩ := hspans
    obtain ⟨htest, hsub⟩ := forall_mem_cons.mp hsub
    obtain ⟨hei, hfi⟩ := hk
    refine h.carried_loop htest (ih hfi hspans hsub) ?_ ?_
    · exact hnests.level_silent (hmem _ htest) rfl rfl
    · exact hei.level hfi hnests hspans fun e he => hmem e (hsub e he)

theorem carries_log (hnests : c.tree.Nests c.function.events) (h₀ : c.initial = .ok s)
    (hs : I c.function.bodyStart [] s) :
    Carries c.tree I [] c.log (c.function.skeleton.walk c s) c.function.stop := by
  have hframed : c.function.skeleton.Framed none := Stmt.framed_skeletonAll _ _ _
  have hspans : c.function.skeleton.Spans c.function.bodyStart c.function.stop :=
    Stmt.spans_skeletonAll _ _
  rw [log, h₀]
  exact h.walk hnests hframed hspans (fun e he => he) (initial_fields h₀).2.1 hs

end Maintains

end Context

end Ownership
