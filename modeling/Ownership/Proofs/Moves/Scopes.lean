import Ownership.Proofs.Moves.Rules

/-!
# Scopes, returns and selections as deeds

The rules for ends of scopes, for returns up to the moment in which the function is left, and for
the headers of arms. The span that an arm reports falls back to that of the session; it has no
influence on ownership.
-/

namespace Ownership

lemma Expr.eq_absent_of_not_isPresent {e : Expr} (h : ¬e.isPresent = true) : e = .absent := by
  cases e with
  | absent => rfl
  | _ => exact absurd rfl h

namespace Context

variable {c : Context} {pos : Int} {loc span : Span} {e : Expr} {p : Place} {a : Access}
  {scrutinee : Option Place} {takes : Bool} {s u : Session}

/-! ### Ends of scopes and returns -/

lemma updates_forget (b : Binding) :
    c.Updates (fun s => s.withFlow (s.flow.forget b)) [.forget b] where
  findings _ := rfl
  returned _ := rfl
  loansTyped h := h
  leaves s q := by
    rw [Session.withFlow, Flow.stateOf_forget, Deed.after_cons, Deed.after_nil, Deed.next,
      Deed.effect]
    split <;> rfl
  passes _ _ := ⟨trivial, trivial⟩

def closeDeeds (c : Context) (scope : Nat) : List Deed := (c.tree.bindingsOf scope).map .forget

lemma flow_foldl_forget (bs : List Binding) (s : Session) :
    (bs.foldl (fun s b => s.withFlow (s.flow.forget b)) s).flow = bs.foldl Flow.forget s.flow := by
  induction bs generalizing s with
  | nil => rfl
  | cons b bs ih => exact ih _

lemma updates_close (scope : Nat) :
    c.Updates (fun s => s.close c.tree scope) (c.closeDeeds scope) := by
  have h : c.Updates _ (c.closeDeeds scope) :=
    Updates.foldl (fun b => updates_forget b) (c.tree.bindingsOf scope)
  constructor
  · intro s
    rfl
  · intro s
    rw [← h.returned s, flow_foldl_forget]
    rfl
  · intro s hs
    exact hs
  · intro s q
    rw [← h.leaves s q, flow_foldl_forget]
    rfl
  · exact h.passes

/-- What happens at the end of a scope before its bindings are forgotten. -/
def finishScope (c : Context) (scope : Scope) (s : Session) : Except Fault Session :=
  if s.flow.returned then .ok s
  else
    let s := s.destroy c.tree scope.id scope.stop
    c.checkDangling scope s.loans s

lemma exitScope_eq (scope : Scope) (s : Session) :
    c.exitScope scope s = c.finishScope scope s >>= fun s => .ok (s.close c.tree scope.id) := by
  unfold exitScope finishScope
  split <;> rfl

lemma does_exitScope (scope : Scope) :
    c.Does id (c.exitScope scope) (c.closeDeeds scope.id) (True ∧ True) Silent := by
  have hfinish : c.Does id (c.finishScope scope) [] True Silent := by
    refine .of_mild (fun s r hr => ?_) fun t ht => ?_
    · unfold finishScope at hr
      split at hr
      · rw [← Except.ok.inj hr]
        exact .refl s
      · exact ((Session.still_destroy s _ _ _).trans (dangled_checkDangling hr).still).mild
    · unfold finishScope
      split
      · exact ⟨t, rfl⟩
      · exact checkDangling_completes _ (ht.of_mild (Session.still_destroy t _ _ _).mild)
  rw [funext (exitScope_eq scope)]
  refine (hfinish.bind fun _ => .of_updates (updates_close scope.id)).congr_tries fun s a u => ?_
  exact ⟨fun h => h.elim id fun ⟨_, _, hS⟩ => hS, fun h => h.elim⟩

/-- A return up to the moment in which the function is left. -/
def yield (c : Context) (pos : Int) (value : Expr) (loc : Span) (s : Session) :
    Except Fault Session :=
  c.evaluate pos loc value s >>= fun k => c.escape pos (value.loc.orElse loc) k.1 k.2

lemma giveBack_eq (pos : Int) (value : Expr) (loc : Span) (s : Session) :
    c.giveBack pos value loc s = c.leaveFunction pos <$> c.yield pos value loc s := by
  unfold giveBack yield
  by_cases hv : value.isPresent = true
  · rw [if_pos hv]
    simp only [bind, Except.bind]
    cases c.evaluate pos loc value s with
    | error e => rfl
    | ok k =>
      dsimp only
      cases c.escape pos (value.loc.orElse loc) k.1 k.2 <;> rfl
  · obtain rfl := Expr.eq_absent_of_not_isPresent hv
    rfl

lemma does_yield (hc : c.tracksLoans = true) (pos : Int) (value : Expr) (loc : Span) :
    ∃ T, c.Does id (c.yield pos value loc) (c.evalDeeds pos loc value ++ []) T
      (c.Asks pos (value.requests (c.evalScope pos loc) true)) := by
  obtain ⟨T, h⟩ := does_evaluate hc pos loc value
  have hescape : ∀ k : List Nat × Session,
      c.Does id (c.escape pos (value.loc.orElse loc) k.1) [] True Silent := fun k =>
    .of_mild (fun _ _ hr => (dangled_escape hr).still.mild) fun _ ht => escape_completes k.1 ht
  refine ⟨T ∧ True, (h.bind hescape).congr_tries fun s a u => ?_⟩
  exact ⟨fun ht => ht.elim id fun ⟨_, _, hS⟩ => hS.elim, .inl⟩

/-! ### Selections -/

def takeDeeds (c : Context) (takes : Bool) (scrutinee : Option Place) : List Deed :=
  match takes, scrutinee with
  | true, some p => Deed.ofAccess (c.consumption p)
  | _, _ => []

/-- The scrutinee is consumed if some binder takes something. -/
lemma does_takeApart (hc : c.tracksLoans = true) (takes : Bool) (scrutinee : Option Place) :
    ∃ T, ∀ pos span, c.Does id (c.takeApart pos span scrutinee takes)
      (c.takeDeeds takes scrutinee) T
      (fun s a u => ∃ p, scrutinee = some p ∧ takes = true ∧ c.consumption p = .ok a ∧ u = s) := by
  have hnothing : ∀ pos span, (∀ p, scrutinee = some p → takes = false) →
      c.Does id (c.takeApart pos span scrutinee takes) [] True
        (fun s a u => ∃ p, scrutinee = some p ∧ takes = true ∧ c.consumption p = .ok a ∧
          u = s) := by
    intro pos span hno
    have hrule : c.takeApart pos span scrutinee takes = .ok := by
      funext s
      cases scrutinee with
      | none => cases takes <;> rfl
      | some p => rw [hno p rfl]; rfl
    rw [hrule]
    refine .congr_tries (A := Silent) (.of_mild (fun s r hr => ?_) fun t _ => ⟨t, rfl⟩)
      fun s a u => ?_
    · rw [← Except.ok.inj hr]
      exact .refl s
    · refine ⟨False.elim, fun ⟨p, hp, ht, _⟩ => ?_⟩
      rw [hno p hp] at ht
      cases ht
  cases scrutinee with
  | none =>
    refine ⟨True, fun pos span => ?_⟩
    rw [show c.takeDeeds takes none = [] by cases takes <;> rfl]
    exact hnothing pos span fun p hp => nomatch hp
  | some p =>
    cases takes with
    | false => exact ⟨True, fun pos span => hnothing pos span fun _ _ => rfl⟩
    | true =>
      obtain ⟨T, hT⟩ := does_accessOf hc (c.consumption p)
      refine ⟨T, fun pos span => ?_⟩
      have hrule : c.takeApart pos span (some p) true =
          fun s => Prod.snd <$> (c.consumption p >>= c.access pos span s) := by
        funext s
        simp only [takeApart, bind, Except.bind]
        cases c.consumption p with
        | error e => rfl
        | ok a =>
          dsimp only
          cases c.access pos span s a <;> rfl
      rw [hrule]
      refine ((hT pos span).map Prod.snd fun _ => .refl _).congr_tries fun s a u => ?_
      exact ⟨fun h => ⟨p, rfl, rfl, h⟩, fun ⟨_, hp, _, h⟩ => Option.some.inj hp ▸ h⟩

/-- The deeds of handing loans to the binders of an arm. -/
def shareDeeds (byRef : Bool) (binders : List (Binding × Ty)) (scrutinee : Option Place) :
    List Deed :=
  match scrutinee with
  | some p => if byRef && binders.any (·.2.isLocalRef) then [.access (.lend p .shared)] else []
  | none => []

lemma mild_attachAll (bs : List Binding) (held : List Nat) (pos : Int) (s : Session) :
    s.Mild (bs.foldl (fun s b => s.attach c.tree held b pos) s) :=
  .foldl (fun s b => .attach s c.tree held b pos) bs s

lemma isEmpty_refs (binders : List (Binding × Ty)) :
    ((binders.filter (·.2.isLocalRef)).map (·.1)).isEmpty = !binders.any (·.2.isLocalRef) := by
  induction binders with
  | nil => rfl
  | cons b rest ih =>
    cases hb : b.2.isLocalRef with
    | true => simp [hb]
    | false => simpa [hb] using ih

lemma shareLoans_eq (hc : c.tracksLoans = true) (pos : Int) (span : Span) (byRef : Bool)
    (binders : List (Binding × Ty)) (p : Place) (h : (byRef && binders.any (·.2.isLocalRef)) = true)
    (s : Session) :
    c.shareLoans pos span byRef binders (some p) s =
      (fun k : List Nat × Session => ((binders.filter (·.2.isLocalRef)).map (·.1)).foldl
        (fun s b => s.attach c.tree k.1 b pos) k.2) <$> c.access pos span s (.lend p .shared) := by
  rw [Bool.and_eq_true] at h
  obtain ⟨rfl, hany⟩ := h
  unfold shareLoans
  simp only [hc, isEmpty_refs, hany, Bool.not_true, Bool.or_false, Bool.false_eq_true, if_false,
    if_true, access, bind, Except.bind]
  cases c.lend p .shared pos span s <;> rfl

lemma mild_shareLoans (pos : Int) (span : Span) (byRef : Bool) (binders : List (Binding × Ty))
    (scrutinee : Option Place) (h : shareDeeds byRef binders scrutinee = []) (s : Session) :
    ∃ s', c.shareLoans pos span byRef binders scrutinee s = .ok s' ∧ s.Mild s' := by
  unfold shareLoans
  cases scrutinee with
  | none => exact ⟨s, rfl, .refl s⟩
  | some p =>
    dsimp only
    split
    · exact ⟨s, rfl, .refl s⟩
    · rename_i hrefs
      have hany : binders.any (·.2.isLocalRef) = true := by
        rw [isEmpty_refs] at hrefs
        simp only [Bool.or_eq_true, not_or, Bool.not_eq_true', Bool.not_eq_false] at hrefs
        exact hrefs.2
      have hby : byRef = false := by
        by_contra hb
        rw [Bool.not_eq_false] at hb
        simp [shareDeeds, hb, hany] at h
      subst hby
      exact ⟨_, rfl, mild_attachAll _ _ _ s⟩

/-- Binders by reference borrow the scrutinee. -/
lemma does_shareLoans (hc : c.tracksLoans = true) (byRef : Bool) (binders : List (Binding × Ty))
    (scrutinee : Option Place) :
    ∃ T, ∀ pos span, c.Does id (c.shareLoans pos span byRef binders scrutinee)
      (shareDeeds byRef binders scrutinee) T
      (fun s a u => ∃ p, scrutinee = some p ∧ (byRef && binders.any (·.2.isLocalRef)) = true ∧
        a = .lend p .shared ∧ u = s) := by
  by_cases hnone : shareDeeds byRef binders scrutinee = []
  · refine ⟨True, fun pos span => ?_⟩
    rw [hnone]
    refine .congr_tries (A := Silent) (.of_mild (fun s r hr => ?_) fun t _ => ?_)
      fun s a u => ?_
    · obtain ⟨s', hs', hm⟩ := mild_shareLoans (c := c) pos span byRef binders scrutinee hnone s
      rw [hs'] at hr
      rw [← Except.ok.inj hr]
      exact hm
    · obtain ⟨s', hs', -⟩ := mild_shareLoans (c := c) pos span byRef binders scrutinee hnone t
      exact ⟨s', hs'⟩
    · refine ⟨False.elim, ?_⟩
      rintro ⟨p, hp, hcond, -⟩
      simp [shareDeeds, hp, hcond] at hnone
  · obtain ⟨p, rfl, hcond⟩ : ∃ p, scrutinee = some p ∧
        (byRef && binders.any (·.2.isLocalRef)) = true := by
      unfold shareDeeds at hnone
      split at hnone
      · rename_i p
        refine ⟨p, rfl, ?_⟩
        by_contra hcond
        rw [if_neg hcond] at hnone
        exact hnone rfl
      · exact absurd rfl hnone
    obtain ⟨T, hT⟩ := does_access hc (.lend p .shared)
    refine ⟨T, fun pos span => ?_⟩
    rw [funext (shareLoans_eq hc pos span byRef binders p hcond),
      show shareDeeds byRef binders (some p) = [.access (.lend p .shared)] from if_pos hcond]
    refine ((hT pos span).map _ fun k => mild_attachAll _ k.1 pos k.2).congr_tries fun s a u => ?_
    constructor
    · exact fun h => ⟨p, rfl, hcond, h⟩
    · rintro ⟨_, hp, -, h⟩
      exact Option.some.inj hp ▸ h

lemma scrutinize_place (hp : e.place? (c.meaning pos) = some p) (s : Session) :
    Prod.snd <$> c.scrutinize pos loc e s =
      Prod.snd <$> c.access pos (e.loc.orElse loc) s (.read p) := by
  simp only [scrutinize, hp]
  rfl

lemma scrutinize_value (hp : e.place? (c.meaning pos) = none) (s : Session) :
    Prod.snd <$> c.scrutinize pos loc e s = Prod.snd <$> c.evaluate pos loc e s := by
  simp only [scrutinize, hp, bind, Except.bind]
  cases c.evaluate pos loc e s <;> rfl

lemma consumption_cases (h : c.consumption p = .ok a) :
    a = .read p ∨ a = .move p ∧ c.typing.refPrefix? p = .ok none := by
  unfold consumption at h
  obtain ⟨r, hr, h⟩ := bind_eq_ok.mp h
  cases r with
  | some _ => exact .inl (Except.ok.inj h).symm
  | none => exact .inr ⟨(Except.ok.inj h).symm, hr⟩

/-- A demand comes to a read, to a loan, or to the move of an owned place whose type is not a copy
type. -/
lemma demanded_cases {demand : Demand} (h : c.demanded p demand = .ok a) :
    a = .read p ∨ (∃ kind, a = .lend p kind) ∨ a = .move p ∧ c.typing.refPrefix? p = .ok none ∧
      ∃ ty, c.typing.placeType p = .ok ty ∧ c.typing.table.tyIsCopy ty = .ok false := by
  cases demand with
  | take =>
    obtain ⟨ty, hty, h⟩ := bind_eq_ok.mp h
    obtain ⟨copies, hcopies, h⟩ := bind_eq_ok.mp h
    cases copies with
    | true => exact .inl (Except.ok.inj h).symm
    | false => exact (consumption_cases h).imp_right fun h => .inr ⟨h.1, h.2, ty, hty, hcopies⟩
  | inspect => exact .inl (Except.ok.inj h).symm
  | lend kind => exact .inr (.inl ⟨kind, (Except.ok.inj h).symm⟩)
  | pass kind =>
    obtain ⟨ty, -, h⟩ := bind_eq_ok.mp h
    obtain ⟨isRef, -, h⟩ := bind_eq_ok.mp h
    cases isRef with
    | true => exact .inl (Except.ok.inj h).symm
    | false => exact .inr (.inl ⟨kind, (Except.ok.inj h).symm⟩)

/-- The span does not matter to ownership. -/
lemma takeApart_span (h : c.takeApart pos span scrutinee takes s = .ok u) (span' : Span) :
    ∃ u', c.takeApart pos span' scrutinee takes s = .ok u' ∧
      ∀ q, u'.flow.stateOf q = u.flow.stateOf q := by
  unfold takeApart at h ⊢
  split at h
  · rename_i p
    obtain ⟨a, ha, h⟩ := bind_eq_ok.mp h
    rw [ha]
    rcases consumption_cases ha with rfl | ⟨rfl, -⟩
    · cases h
      refine ⟨_, rfl, fun q => ?_⟩
      unfold read
      cases s.flow.refusal? p with
      | some r => simp only [Session.flow_report]
      | none => simp only [notes_noteRead.still.flow]
    · cases h
      refine ⟨_, rfl, fun q => ?_⟩
      unfold move
      cases s.flow.refusal? p with
      | some r => simp only [Session.flow_report]
      | none => simp only [Session.withFlow, notes_noteMove.still.flow, Flow.stateOf_moveOut]
  · exact ⟨u, h, fun _ => rfl⟩

/-! ### Headers of arms -/

/-- The header of an arm, once the types of its binders are known. -/
def settleArm (c : Context) (pos : Int) (span : Span) (byRef : Bool) (binders : List (Binding × Ty))
    (scrutinee : Option Place) (takes : Bool) (s : Session) : Except Fault Session :=
  c.takeApart pos span scrutinee takes (fillBinders binders s) >>=
    c.shareLoans pos span byRef binders scrutinee

/-- The deeds of the header of an arm, once the types of its binders are known. -/
def settleDeeds (c : Context) (byRef : Bool) (binders : List (Binding × Ty))
    (scrutinee : Option Place) (takes : Bool) : List Deed :=
  binders.map (fun b => .mark (.ofBinding b.1) .owned) ++
    (c.takeDeeds takes scrutinee ++ shareDeeds byRef binders scrutinee)

/-- What the header of an arm tries, once the types of its binders are known. -/
def SettleTries (c : Context) (pos : Int) (span : Span) (byRef : Bool)
    (binders : List (Binding × Ty)) (scrutinee : Option Place) (takes : Bool)
    (s : Session) (a : Access) (u : Session) : Prop :=
  ∃ p, scrutinee = some p ∧
    ((takes = true ∧ c.consumption p = .ok a ∧ u = fillBinders binders s) ∨
    ((byRef && binders.any (·.2.isLocalRef)) = true ∧ a = .lend p .shared ∧
      c.takeApart pos span scrutinee takes (fillBinders binders s) = .ok u))

lemma does_settleArm (hc : c.tracksLoans = true) (byRef : Bool) (binders : List (Binding × Ty))
    (scrutinee : Option Place) (takes : Bool) :
    ∃ T, ∀ pos span, c.Does id (c.settleArm pos span byRef binders scrutinee takes)
      (c.settleDeeds byRef binders scrutinee takes) T
      (c.SettleTries pos span byRef binders scrutinee takes) := by
  obtain ⟨T, hT⟩ := does_takeApart hc takes scrutinee
  obtain ⟨U, hU⟩ := does_shareLoans hc byRef binders scrutinee
  have hfill :
      c.Updates (fillBinders binders) (binders.map fun b => .mark (.ofBinding b.1) .owned) :=
    Updates.foldl (fun b => updates_mark (.ofBinding b.1) .owned) binders
  refine ⟨True ∧ (T ∧ U), fun pos span => ?_⟩
  refine ((Does.of_updates hfill).bind fun _ => (hT pos span).bind fun _ => hU pos span).congr_tries
    fun s a u => ?_
  constructor
  · rintro (h | ⟨r, hr, ⟨p, hp, h⟩ | ⟨m, hm, p, hp, hcond, ha, rfl⟩⟩)
    · exact h.elim
    · cases hr
      exact ⟨p, hp, .inl h⟩
    · cases hr
      exact ⟨p, hp, .inr ⟨hcond, ha, hm⟩⟩
  · rintro ⟨p, hp, h | ⟨hcond, ha, hu⟩⟩
    · exact .inr ⟨_, rfl, .inl ⟨p, hp, h⟩⟩
    · exact .inr ⟨_, rfl, .inr ⟨u, hu, p, hp, hcond, ha, rfl⟩⟩

lemma SettleTries.of_span {byRef : Bool} {binders : List (Binding × Ty)}
    (h : c.SettleTries pos span byRef binders scrutinee takes s a u) (span' : Span) :
    ∃ u', c.SettleTries pos span' byRef binders scrutinee takes s a u' ∧
      (a.Fits u'.flow ↔ a.Fits u.flow) := by
  obtain ⟨p, hp, h | ⟨hcond, ha, hu⟩⟩ := h
  · exact ⟨u, ⟨p, hp, .inl h⟩, Iff.rfl⟩
  · obtain ⟨u', hu', hstates⟩ := takeApart_span hu span'
    refine ⟨u', ⟨p, hp, .inr ⟨hcond, ha, hu'⟩⟩, ?_⟩
    simp only [Access.fits_iff, hstates]

lemma does_settleArm_spanOf (hc : c.tracksLoans = true) (pos : Int) (spanOf : Session → Span)
    (byRef : Bool) (binders : List (Binding × Ty)) (scrutinee : Option Place) (takes : Bool) :
    ∃ T, c.Does id (fun s => c.settleArm pos (spanOf s) byRef binders scrutinee takes s)
      (c.settleDeeds byRef binders scrutinee takes) T
      (fun s => c.SettleTries pos (spanOf s) byRef binders scrutinee takes s) := by
  obtain ⟨T, hT⟩ := does_settleArm hc byRef binders scrutinee takes
  refine ⟨T, ?_⟩
  constructor
  · intro s r hr
    exact (hT pos _).grows hr
  · intro s r hr
    exact (hT pos _).returned hr
  · intro s r hr
    exact (hT pos _).loansTyped hr
  · intro s r hr
    exact (hT pos _).leaves hr
  · intro s r hr
    exact (hT pos _).clean hr
  · intro s r hr
    exact (hT pos _).passes hr
  · intro t
    exact (hT pos _).completes
  · intro t a u hA
    exact (hT pos _).fits hA
  · intro s r hr hs hn
    obtain ⟨q, hq⟩ := (hT pos _).refused hr hs hn
    refine ⟨q, fun t ht hts heq => ?_⟩
    obtain ⟨a, u, hA, hfit⟩ := hq t ht hts heq
    obtain ⟨u', hA', hiff⟩ := hA.of_span (spanOf t)
    exact ⟨a, u', hA', fun h => hfit (hiff.mp h)⟩

end Context

end Ownership
