import Ownership.Proofs.Moves.Requests

/-!
# The rules for statements as deeds

Each rule is put together from accesses, from changes of states that nothing checks, and from mild
changes. Its deeds follow in the same order.
-/

namespace Ownership

lemma Session.Mild.foldl {β : Type} {g : Session → β → Session}
    (h : ∀ (s : Session) b, s.Mild (g s b)) (l : List β) (s : Session) : s.Mild (l.foldl g s) := by
  induction l generalizing s with
  | nil => exact .refl s
  | cons b l ih => exact (h s b).trans (ih (g s b))

namespace Context

variable {c : Context} {ρ : Type}

lemma Does.begin {out : ρ → Session} {rule : Session → Except Fault ρ} {ds : List Deed} {T : Prop}
    {A : Session → Access → Session → Prop} (h : c.Does out rule ds T A) (loc : Span) :
    c.Does out (fun s => rule (s.begin loc)) ds T (fun s => A (s.begin loc)) where
  grows {s _} hr := h.grows (s := s.begin loc) hr
  returned {s _} hr := h.returned (s := s.begin loc) hr
  loansTyped {s _} hr ht := h.loansTyped (s := s.begin loc) hr ht
  leaves {s _} hr hp := h.leaves (s := s.begin loc) hr hp
  clean {s _} hr hs hp := h.clean (s := s.begin loc) hr hs hp
  passes {s _} hr hs := h.passes (s := s.begin loc) hr hs
  completes {t} hT ht hp := h.completes (t := t.begin loc) hT ht hp
  fits {t _ _} hA hp := h.fits (t := t.begin loc) hA hp
  refused hr hs hn := by
    obtain ⟨q, hq⟩ := h.refused hr hs hn
    exact ⟨q, fun t ht hts heq => hq (t.begin loc) ht hts heq⟩

/-! ### Evaluations -/

/-- The deeds of an evaluation whose value is taken. -/
def evalDeeds (c : Context) (pos : Int) (loc : Span) (e : Expr) : List Deed :=
  (e.requests (c.evalScope pos loc) true).flatMap c.requestDeeds

/-- The deeds of an evaluation that only reads. -/
def testDeeds (c : Context) (pos : Int) (loc : Span) (e : Expr) : List Deed :=
  (e.readRequests (c.evalScope pos loc)).flatMap c.requestDeeds

lemma does_evaluate (hc : c.tracksLoans = true) (pos : Int) (loc : Span) (e : Expr) :
    ∃ T, c.Does Prod.snd (c.evaluate pos loc e) (c.evalDeeds pos loc e) T
      (c.Asks pos (e.requests (c.evalScope pos loc) true)) :=
  does_performAll hc pos _

lemma does_inspect (hc : c.tracksLoans = true) (pos : Int) (loc : Span) (e : Expr) :
    ∃ T, c.Does id (c.inspect pos loc e) (c.testDeeds pos loc e) T
      (c.Asks pos (e.readRequests (c.evalScope pos loc))) := by
  obtain ⟨T, h⟩ := does_performAll hc pos (e.readRequests (c.evalScope pos loc))
  exact ⟨T, h.map Prod.snd fun _ => .refl _⟩

/-! ### Declarations and assignments -/

lemma updates_mark (p : Place) (state : PlaceState) :
    c.Updates (fun s => s.mark p state) [.mark p state] where
  findings _ := rfl
  returned _ := rfl
  loansTyped h := h
  leaves s q := by
    rw [Session.mark, Flow.stateOf_mark, Deed.after_cons, Deed.after_nil, Deed.next, Deed.effect]
    split <;> rfl
  passes _ _ := ⟨trivial, trivial⟩

lemma Updates.then_mild {g g' : Session → Session} {ds : List Deed} (h : c.Updates g ds)
    (hg : ∀ s : Session, s.Mild (g' s)) (hfind : ∀ s, (g' s).findings = s.findings) :
    c.Updates (fun s => g' (g s)) ds where
  findings s := (hfind (g s)).trans (h.findings s)
  returned s := by rw [(hg (g s)).flow]; exact h.returned s
  loansTyped ht := (h.loansTyped ht).of_mild (hg _)
  leaves s q := by rw [(hg (g s)).flow]; exact h.leaves s q
  passes := h.passes

def introduceDeeds (c : Context) (pos : Int) (state : PlaceState) : List Deed :=
  (c.tree.declaredBy pos).map fun b => .mark (.ofBinding b) state

lemma updates_introduce (pos : Int) (state : PlaceState) (held : List Nat) :
    c.Updates (c.introduce pos state held) (c.introduceDeeds pos state) :=
  Updates.foldl (fun b => (updates_mark (.ofBinding b) state).then_mild
    (fun s => .attach s c.tree held b pos) fun _ => rfl) _

lemma does_declare (hc : c.tracksLoans = true) (pos : Int) (value : Expr) (loc : Span) :
    ∃ T, c.Does id (c.declare pos value loc) (c.evalDeeds pos loc value ++
        c.introduceDeeds pos (if value.isPresent then .owned else .uninit)) T
      (c.Asks pos (value.requests (c.evalScope pos loc) true)) := by
  obtain ⟨T, h⟩ := does_evaluate hc pos loc value
  refine ⟨T ∧ True, ?_⟩
  refine (h.bind fun k => .of_updates (updates_introduce pos _ k.1)).congr_tries fun s a u => ?_
  exact ⟨fun ht => ht.elim id fun ⟨_, _, hS⟩ => hS.elim, .inl⟩

def storeDeeds (c : Context) (pos : Int) (target : Expr) : List Deed :=
  match target.place? (c.meaning pos) with
  | some p => Deed.ofAccess (c.storage p)
  | none => []

lemma store_eq (pos : Int) (span : Span) (p : Place) (held : List Nat) (s : Session) :
    c.store pos span p held s =
      (fun k : List Nat × Session => if c.storage p = .ok (.write p) then
        k.2.attach c.tree held p.base pos else k.2) <$> (c.storage p >>= c.access pos span s) := by
  unfold store
  cases c.storage p with
  | error e => rfl
  | ok a =>
    simp only [bind, Except.bind, Except.ok.injEq]
    cases c.access pos span s a <;> rfl

lemma does_store (hc : c.tracksLoans = true) (pos : Int) (span : Span) (p : Place) :
    ∃ T, ∀ held, c.Does id (c.store pos span p held) (Deed.ofAccess (c.storage p)) T
      (fun s a u => c.storage p = .ok a ∧ u = s) := by
  obtain ⟨T, h⟩ := does_accessOf hc (c.storage p)
  refine ⟨T, fun held => ?_⟩
  rw [funext (store_eq pos span p held)]
  refine (h pos span).map _ fun k => ?_
  dsimp only [id]
  split
  · exact .attach k.2 c.tree held p.base pos
  · exact .refl k.2

/-- An assignment evaluates its value and then stores it. -/
lemma does_assign (hc : c.tracksLoans = true) (pos : Int) (target value : Expr) (loc : Span) :
    ∃ T, c.Does id (c.assign pos target value loc)
      (c.evalDeeds pos loc value ++ c.storeDeeds pos target) T
      (fun s a u => c.Asks pos (value.requests (c.evalScope pos loc) true) s a u ∨
        ∃ k, c.evaluate pos loc value s = .ok k ∧
          ∃ p, target.place? (c.meaning pos) = some p ∧ c.storage p = .ok a ∧ u = k.2) := by
  obtain ⟨T, h⟩ := does_evaluate hc pos loc value
  unfold storeDeeds
  cases hp : target.place? (c.meaning pos) with
  | none =>
    have hfail : ∀ k : List Nat × Session, c.Does id
        (fun _ => (throw (.notAPlace pos) : Except Fault Session)) [] False
        (fun s a u => ∃ p, (none : Option Place) = some p ∧ c.storage p = .ok a ∧ u = s) := by
      intro k
      refine .congr_tries (A := Silent) (.fail fun s r hr => ?_) fun s a u => ?_
      · cases hr
      · exact ⟨False.elim, fun ⟨_, hn, _⟩ => nomatch hn⟩
    refine ⟨T ∧ False, ?_⟩
    rw [show c.assign pos target value loc = fun s => c.evaluate pos loc value s >>= fun _ =>
      throw (.notAPlace pos) from funext fun s => by simp only [assign, hp]]
    exact h.bind hfail
  | some p =>
    obtain ⟨U, hU⟩ := does_store hc pos (target.loc.orElse loc) p
    have hstore : ∀ k : List Nat × Session, c.Does id
        (c.store pos (target.loc.orElse loc) p k.1) (Deed.ofAccess (c.storage p)) U
        (fun s a u => ∃ p', some p = some p' ∧ c.storage p' = .ok a ∧ u = s) := by
      intro k
      refine (hU k.1).congr_tries fun s a u => ?_
      exact ⟨fun ht => ⟨p, rfl, ht⟩, fun ⟨_, he, ht⟩ => Option.some.inj he ▸ ht⟩
    refine ⟨T ∧ U, ?_⟩
    rw [show c.assign pos target value loc = fun s => c.evaluate pos loc value s >>= fun k =>
      c.store pos (target.loc.orElse loc) p k.1 k.2 from funext fun s => by simp only [assign, hp]]
    exact h.bind hstore

end Context

end Ownership
