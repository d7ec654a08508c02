import Ownership.Proofs.Control.Skeleton
import Ownership.Proofs.Moves.Scopes

/-!
# Events as deeds

Every event has its list of deeds, which depends on the function only. An arm touches its scrutinee
only if the selection was not refused, so the deeds of its header begin with a reading that
succeeded before, and the header is *admitted* where that reading would succeed again.
-/

namespace Ownership

namespace Context

/-! ### Deeds -/

/-- The deeds of the header of an arm that touches a scrutinee. -/
def armDeeds (c : Context) (sel : Selection) (scrutinee : Option Place) (pos : Int) (a : Arm) :
    List Deed :=
  match c.armTypes sel a with
  | .error _ => []
  | .ok types =>
    match c.takesAny types with
    | .error _ => []
    | .ok takes => c.settleDeeds a.byRef ((c.tree.declaredBy pos).zip types) scrutinee takes

def scrutineePlace (c : Context) (sel : Selection) : Option Place :=
  sel.scrutinee.place? (c.meaning sel.label)

/-- The deeds of executing a node at a position. -/
def nodeDeeds (c : Context) (pos : Int) : Node → List Deed
  | .stmt (.declare _ _ value _ loc) =>
    c.evalDeeds pos loc value ++
      c.introduceDeeds pos (if value.isPresent then .owned else .uninit)
  | .stmt (.assign target value loc) => c.evalDeeds pos loc value ++ c.storeDeeds pos target
  | .stmt (.evaluate value loc) | .stmt (.ret value loc) => c.evalDeeds pos loc value
  | .stmt (.branch test _ _ loc) | .stmt (.loop test _ loc) => c.testDeeds pos loc test
  | .stmt (.select scrutinee _ _ loc) =>
    match scrutinee.place? (c.meaning pos) with
    | some p => [.access (.read p)]
    | none => c.evalDeeds pos loc scrutinee
  | .arm a (some sel) =>
    (c.scrutineePlace sel).toList.map (fun p => .access (.read p)) ++
      c.armDeeds sel (c.scrutineePlace sel) pos a
  | .stmt (.foreign _) | .arm _ none | .stmt (.block _) | .function | .param _ => []

def deeds (c : Context) (e : Event) : List Deed :=
  match e.kind with
  | .step => c.nodeDeeds e.pos e.node
  | .enter => []
  | .exit =>
    match c.tree.scopeOf e.label e.node.kindName with
    | .ok scope => c.closeDeeds scope.id
    | .error _ => []

/-- The places that must be usable where an event takes place. -/
def guards (c : Context) (e : Event) : List Place :=
  match e.kind, e.node with
  | .step, .arm _ (some sel) => (c.scrutineePlace sel).toList
  | _, _ => []

/-- Whether an event can take place in an ownership state. -/
def Admits (c : Context) (e : Event) (f : Flow) : Prop := ∀ p ∈ c.guards e, f.Usable p

/-- Whether an event completes wherever its deeds pass. -/
def Ready (c : Context) (e : Event) : Prop :=
  ∀ t, c.LoansTyped t → t.Passes (c.deeds e) → ∃ t', c.execute e t = .ok t'

/-- What executing an event does, seen as deeds. -/
structure Performs (c : Context) (e : Event) : Prop where
  grows {s s'} : c.execute e s = .ok s' → s.findings <+: s'.findings
  returned {s s'} : c.execute e s = .ok s' → s'.flow.returned = (s.flow.returned || e.isReturn)
  loansTyped {s s'} : c.execute e s = .ok s' → c.LoansTyped s → c.LoansTyped s'
  leaves {s s'} : c.execute e s = .ok s' → s.Passes (c.deeds e) → s.Leaves (c.deeds e) s'
  clean {s s'} : c.execute e s = .ok s' → s.Clean → s.Passes (c.deeds e) → s'.Clean
  passes {s s'} : c.execute e s = .ok s' → c.Admits e s.flow → s'.Clean →
    c.Ready e ∧ s.Passes (c.deeds e)
  fits {t a u} : c.Tries e t a u → t.Passes (c.deeds e) → a.Fits u.flow
  refused {s s'} : c.execute e s = .ok s' → c.Admits e s.flow → s.Clean → ¬s'.Clean →
    ∃ q, ∀ t, c.LoansTyped t → t.Under s → t.flow.stateOf q = s.flow.stateOf q →
      ∃ a u, c.Tries e t a u ∧ ¬a.Fits u.flow

variable {c : Context} {e : Event}

/-! ### Events that always can take place -/

lemma Performs.of_does {T : Prop} (h : c.Does id (c.execute e) (c.deeds e) T (c.Tries e))
    (hret : e.isReturn = false) : c.Performs e where
  grows hr := h.grows hr
  returned hr := by rw [hret, Bool.or_false]; exact h.returned hr
  loansTyped hr := h.loansTyped hr
  leaves hr := h.leaves hr
  clean hr := h.clean hr
  passes hr _ hs := by
    obtain ⟨hT, hp⟩ := h.passes hr hs
    exact ⟨fun t => h.completes hT, hp⟩
  fits := h.fits
  refused hr _ := h.refused hr

lemma tries_iff (hk : e.kind = .step) (s : Session) (a : Access) (u : Session) :
    c.NodeTries e.pos s a u e.node ↔ c.Tries e s a u := by
  simp [Tries, hk]

lemma Performs.of_node (hk : e.kind = .step) (hret : e.isReturn = false)
    (h : ∃ T, c.Does id (fun s => c.executeNode e.pos s e.node) (c.nodeDeeds e.pos e.node) T
      (fun s a u => c.NodeTries e.pos s a u e.node)) : c.Performs e := by
  obtain ⟨T, hT⟩ := h
  have hrule : c.execute e = fun s => c.executeNode e.pos s e.node := by
    funext s
    rw [execute, hk]
  have hdeeds : c.deeds e = c.nodeDeeds e.pos e.node := by rw [deeds, hk]
  refine .of_does (T := T) ?_ hret
  rw [hrule, hdeeds]
  exact hT.congr_tries (tries_iff hk)

lemma Performs.of_idle (hk : e.kind = .step) (hret : e.isReturn = false)
    (hrule : ∀ s, c.executeNode e.pos s e.node = .ok s) (hdeeds : c.nodeDeeds e.pos e.node = [])
    (htries : ∀ s a u, ¬c.NodeTries e.pos s a u e.node) : c.Performs e := by
  refine .of_node hk hret ⟨True, ?_⟩
  rw [hdeeds, funext hrule]
  refine .congr_tries (A := Silent) (.of_mild (fun s r hr => ?_) fun t _ => ⟨t, rfl⟩)
    fun s a u => ?_
  · rw [← Except.ok.inj hr]
    exact .refl s
  · exact ⟨False.elim, fun h => htries s a u h⟩

lemma performs_enter (hk : e.kind = .enter) : c.Performs e := by
  have hret : e.isReturn = false := by simp [Event.isReturn, hk]
  have htries : ∀ s a u, Silent s a u ↔ c.Tries e s a u := by simp [Silent, Tries, hk]
  have hdeeds : c.deeds e = [] := by rw [deeds, hk]
  have hrule : ∀ s, c.execute e s = s.push <$> c.tree.scopeOf e.label e.node.kindName := by
    intro s
    rw [execute, hk]
  cases hscope : c.tree.scopeOf e.label e.node.kindName with
  | error f =>
    refine .of_does (Does.congr_tries (A := Silent) (.fail fun s r hr => ?_) htries) hret
    rw [hrule, hscope] at hr
    cases hr
  | ok scope =>
    refine .of_does (T := True) ?_ hret
    rw [hdeeds]
    refine .congr_tries (A := Silent) (.of_mild (fun s r hr => ?_) fun t _ => ?_) htries
    · rw [hrule, hscope] at hr
      rw [← Except.ok.inj hr]
      exact .of_eq rfl rfl rfl
    · exact ⟨t.push scope, by rw [hrule, hscope]; rfl⟩

lemma performs_exit (hk : e.kind = .exit) : c.Performs e := by
  have hret : e.isReturn = false := by simp [Event.isReturn, hk]
  have htries : ∀ s a u, Silent s a u ↔ c.Tries e s a u := by simp [Silent, Tries, hk]
  have hrule : ∀ s, c.execute e s =
      c.tree.scopeOf e.label e.node.kindName >>= (c.exitScope · s) := by
    intro s
    rw [execute, hk]
  cases hscope : c.tree.scopeOf e.label e.node.kindName with
  | error f =>
    refine .of_does (Does.congr_tries (A := Silent) (.fail fun s r hr => ?_) htries) hret
    rw [hrule, hscope] at hr
    cases hr
  | ok scope =>
    have hdeeds : c.deeds e = c.closeDeeds scope.id := by simp only [deeds, hk, hscope]
    refine .of_does (T := True ∧ True) ?_ hret
    have hexec : c.execute e = c.exitScope scope := by
      funext s
      rw [hrule, hscope]
      rfl
    rw [hdeeds, hexec]
    exact (does_exitScope scope).congr_tries htries

/-! ### Returns -/

lemma states_leaveFunction (pos : Int) (s : Session) :
    (c.leaveFunction pos s).flow = { s.flow with returned := true } := by
  unfold leaveFunction
  dsimp only [Session.withFlow]
  rw [foldl_keeps Session.flow fun s (scope : Scope) => Session.flow_destroy s pos c.tree scope.id]

lemma findings_leaveFunction (pos : Int) (s : Session) :
    (c.leaveFunction pos s).findings = s.findings :=
  foldl_keeps Session.findings
    (fun s (scope : Scope) => Session.findings_destroy s pos c.tree scope.id) s.scopes s

lemma loans_leaveFunction (pos : Int) (s : Session) : (c.leaveFunction pos s).loans = s.loans :=
  foldl_keeps Session.loans
    (fun s (scope : Scope) => Session.loans_destroy s pos c.tree scope.id) s.scopes s

/-- A return evaluates its value and then leaves the function. -/
lemma performs_return (hc : c.tracksLoans = true) (hk : e.kind = .step) {value : Expr} {loc : Span}
    (hn : e.node = .stmt (.ret value loc)) : c.Performs e := by
  obtain ⟨T, h⟩ := does_yield hc e.pos value loc
  have hT := h.begin loc
  have hdeeds : c.deeds e = c.evalDeeds e.pos loc value ++ [] := by
    simp only [deeds, hk, hn, nodeDeeds, List.append_nil]
  have hret : e.isReturn = true := by simp [Event.isReturn, hk, hn]
  have hrule : ∀ s, c.execute e s =
      c.leaveFunction e.pos <$> c.yield e.pos value loc (s.begin loc) := by
    intro s
    rw [← giveBack_eq]
    simp only [execute, hk, hn, executeNode]
  have htries : ∀ s a u, c.Tries e s a u ↔
      c.Asks e.pos (value.requests (c.evalScope e.pos loc) true) (s.begin loc) a u := by
    intro s a u
    simp only [Tries, hk, hn, NodeTries, true_and]
  -- Leaving the function changes nothing but the end of the path.
  have hok : ∀ {s s'}, c.execute e s = .ok s' → ∃ r, c.yield e.pos value loc (s.begin loc) = .ok r ∧
      s' = c.leaveFunction e.pos r := by
    intro s s' hs'
    rw [hrule] at hs'
    obtain ⟨r, hr, rfl⟩ := map_eq_ok.mp hs'
    exact ⟨r, hr, rfl⟩
  constructor
  · intro s s' hs'
    obtain ⟨r, hr, rfl⟩ := hok hs'
    rw [findings_leaveFunction]
    exact hT.grows hr
  · intro s s' hs'
    obtain ⟨r, hr, rfl⟩ := hok hs'
    rw [states_leaveFunction, hret, Bool.or_true]
  · intro s s' hs' ht
    obtain ⟨r, hr, rfl⟩ := hok hs'
    rw [LoansTyped, loans_leaveFunction]
    exact hT.loansTyped hr ht
  · intro s s' hs' hp q
    obtain ⟨r, hr, rfl⟩ := hok hs'
    rw [hdeeds] at hp ⊢
    rw [states_leaveFunction]
    exact hT.leaves hr hp q
  · intro s s' hs' hs hp
    obtain ⟨r, hr, rfl⟩ := hok hs'
    rw [Session.Clean, findings_leaveFunction]
    exact hT.clean hr hs (hdeeds ▸ hp)
  · intro s s' hs' _ hs
    obtain ⟨r, hr, rfl⟩ := hok hs'
    rw [Session.Clean, findings_leaveFunction] at hs
    obtain ⟨hty, hp⟩ := hT.passes hr hs
    rw [Ready, hdeeds]
    refine ⟨fun t ht hpt => ?_, hp⟩
    obtain ⟨r', hr'⟩ := hT.completes hty ht hpt
    exact ⟨_, by rw [hrule, hr']; rfl⟩
  · intro t a u hA hp
    exact hT.fits ((htries t a u).mp hA) (hdeeds ▸ hp)
  · intro s s' hs' _ hs hn'
    obtain ⟨r, hr, rfl⟩ := hok hs'
    rw [Session.Clean, findings_leaveFunction] at hn'
    obtain ⟨q, hq⟩ := hT.refused hr hs hn'
    refine ⟨q, fun t ht hts heq => ?_⟩
    obtain ⟨a, u, hA, hfit⟩ := hq t ht hts heq
    exact ⟨a, u, (htries t a u).mpr hA, hfit⟩

/-! ### Headers of arms -/

lemma does_bindArm (hc : c.tracksLoans = true) (sel : Selection) (scrutinee : Option Place)
    (pos : Int) (arm : Arm) :
    ∃ T, c.Does id (c.bindArm sel scrutinee pos arm) (c.armDeeds sel scrutinee pos arm) T
      (c.ArmTries sel scrutinee pos arm) := by
  unfold armDeeds
  cases htypes : c.armTypes sel arm with
  | error f =>
    refine ⟨False, Does.congr_tries (A := Silent) (.fail fun s r hr => ?_) fun s a u => ?_⟩
    · simp only [bindArm, htypes] at hr
      cases hr
    · refine ⟨False.elim, fun ⟨_, types, _, _, h, _⟩ => ?_⟩
      rw [htypes] at h
      cases h
  | ok types =>
    dsimp only
    cases htakes : c.takesAny types with
    | error f =>
      refine ⟨False, Does.congr_tries (A := Silent) (.fail fun s r hr => ?_) fun s a u => ?_⟩
      · simp only [bindArm, htypes, bind, Except.bind, htakes] at hr
        cases hr
      · refine ⟨False.elim, fun ⟨_, types', _, _, h, h', _⟩ => ?_⟩
        rw [htypes] at h
        cases h
        rw [htakes] at h'
        cases h'
    | ok takes =>
      obtain ⟨T, hT⟩ := does_settleArm_spanOf hc pos (fun s => arm.loc.orElse s.span) arm.byRef
        ((c.tree.declaredBy pos).zip types) scrutinee takes
      refine ⟨T, ?_⟩
      have hrule :
          c.bindArm sel scrutinee pos arm = fun s => c.settleArm pos (arm.loc.orElse s.span)
          arm.byRef ((c.tree.declaredBy pos).zip types) scrutinee takes s := by
        funext s
        simp only [bindArm, htypes, bind, Except.bind, htakes, settleArm]
      rw [hrule]
      refine hT.congr_tries fun s a u => ?_
      constructor
      · rintro ⟨p, rfl, h | ⟨hcond, ha, hu⟩⟩
        · exact ⟨p, types, takes, rfl, htypes, htakes, .inl h⟩
        · rw [Bool.and_eq_true] at hcond
          exact ⟨p, types, takes, rfl, htypes, htakes, .inr ⟨hcond.1, hcond.2, ha, hu⟩⟩
      · rintro ⟨p, types', takes', rfl, h, h', hcase⟩
        rw [htypes] at h
        cases h
        rw [htakes] at h'
        cases h'
        refine ⟨p, rfl, ?_⟩
        rcases hcase with hcase | ⟨hby, hany, ha, hu⟩
        · exact .inl hcase
        · exact .inr ⟨by rw [hby, hany]; rfl, ha, hu⟩

lemma touchable_eq {sel : Selection} {s : Session}
    (h : ∀ p ∈ (c.scrutineePlace sel).toList, s.flow.Usable p) :
    c.touchable sel s = c.scrutineePlace sel := by
  unfold touchable
  change (c.scrutineePlace sel).filter _ = c.scrutineePlace sel
  cases hp : c.scrutineePlace sel with
  | none => rfl
  | some p =>
    have hu : s.flow.refusal? p = none :=
      Flow.refusal?_eq_none_iff.mpr (h p (by rw [hp]; exact List.mem_singleton_self p))
    simp [Option.filter, hu]

lemma passes_guarded (place : Option Place) (ds : List Deed) (s : Session) :
    s.Passes (place.toList.map (fun p => .access (.read p)) ++ ds) ↔
      (∀ p ∈ place.toList, s.flow.Usable p) ∧ s.Passes ds := by
  cases place with
  | none => simp
  | some p =>
    have hl : s.Leaves [.access (.read p)] s := fun _ => rfl
    simp only [Option.toList_some, List.map_cons, List.map_nil, List.mem_singleton, forall_eq]
    rw [Session.passes_append hl, Session.passes_access]
    exact .rfl

lemma leaves_guarded (place : Option Place) (ds : List Deed) (s s' : Session) :
    s.Leaves (place.toList.map (fun p => .access (.read p)) ++ ds) s' ↔ s.Leaves ds s' := by
  cases place with
  | none => exact .rfl
  | some p => exact .rfl

/-- An admitted header does its deeds. -/
lemma performs_arm (hc : c.tracksLoans = true) (hk : e.kind = .step) {arm : Arm} {sel : Selection}
    (hn : e.node = .arm arm (some sel)) : c.Performs e := by
  have hdeeds : c.deeds e = (c.scrutineePlace sel).toList.map (fun p => .access (.read p)) ++
      c.armDeeds sel (c.scrutineePlace sel) e.pos arm := by
    simp only [deeds, hk, hn, nodeDeeds]
  have hguards : c.guards e = (c.scrutineePlace sel).toList := by simp only [guards, hk, hn]
  have hret : e.isReturn = false := by simp [Event.isReturn, hk, hn]
  have hrule : ∀ s, c.execute e s = c.bindArm sel (c.touchable sel s) e.pos arm s := by
    intro s
    simp only [execute, hk, hn, executeNode]
  have htries : ∀ s a u, c.Tries e s a u ↔ c.ArmTries sel (c.touchable sel s) e.pos arm s a u := by
    intro s a u
    simp only [Tries, hk, hn, NodeTries, true_and]
  obtain ⟨T, hT⟩ := does_bindArm hc sel (c.scrutineePlace sel) e.pos arm
  -- Where the arm is admitted, it touches the place of the scrutinee.
  have hthere : ∀ {s : Session}, c.Admits e s.flow → c.touchable sel s = c.scrutineePlace sel := by
    intro s h
    exact touchable_eq (hguards ▸ h)
  have hsplit : ∀ {s : Session}, s.Passes (c.deeds e) ↔
      c.Admits e s.flow ∧ s.Passes (c.armDeeds sel (c.scrutineePlace sel) e.pos arm) := by
    intro s
    rw [hdeeds, passes_guarded, Admits, hguards]
  constructor
  · intro s s' hs'
    obtain ⟨U, hU⟩ := does_bindArm hc sel (c.touchable sel s) e.pos arm
    exact hU.grows (hrule s ▸ hs')
  · intro s s' hs'
    obtain ⟨U, hU⟩ := does_bindArm hc sel (c.touchable sel s) e.pos arm
    rw [hret, Bool.or_false]
    exact hU.returned (hrule s ▸ hs')
  · intro s s' hs'
    obtain ⟨U, hU⟩ := does_bindArm hc sel (c.touchable sel s) e.pos arm
    exact hU.loansTyped (hrule s ▸ hs')
  · intro s s' hs' hp
    obtain ⟨hadm, hp⟩ := hsplit.mp hp
    rw [hrule, hthere hadm] at hs'
    rw [hdeeds, leaves_guarded]
    exact hT.leaves hs' hp
  · intro s s' hs' hs hp
    obtain ⟨hadm, hp⟩ := hsplit.mp hp
    rw [hrule, hthere hadm] at hs'
    exact hT.clean hs' hs hp
  · intro s s' hs' hadm hs
    rw [hrule, hthere hadm] at hs'
    obtain ⟨hty, hp⟩ := hT.passes hs' hs
    refine ⟨fun t ht hpt => ?_, hsplit.mpr ⟨hadm, hp⟩⟩
    obtain ⟨hadm', hpt⟩ := hsplit.mp hpt
    rw [hrule, hthere hadm']
    exact hT.completes hty ht hpt
  · intro t a u hA hp
    obtain ⟨hadm, hp⟩ := hsplit.mp hp
    rw [htries, hthere hadm] at hA
    exact hT.fits hA hp
  · intro s s' hs' hadm hs hn'
    rw [hrule, hthere hadm] at hs'
    obtain ⟨q, hq⟩ := hT.refused hs' hs hn'
    refine ⟨q, fun t ht hts heq => ?_⟩
    have hadm' : c.Admits e t.flow := fun p hp => (hadm p hp).of_le hts
    obtain ⟨a, u, hA, hfit⟩ := hq t ht hts heq
    exact ⟨a, u, by rw [htries, hthere hadm']; exact hA, hfit⟩

/-- A statement does its deeds. -/
lemma performs_stmt (hc : c.tracksLoans = true) (hk : e.kind = .step) {stmt : Stmt}
    (hn : e.node = .stmt stmt) : c.Performs e := by
  have hret : (∀ value loc, stmt ≠ .ret value loc) → e.isReturn = false := by
    intro h
    simp only [Event.isReturn, hk, hn]
    cases stmt with
    | ret value loc => exact absurd rfl (h value loc)
    | _ => rfl
  cases stmt with
  | ret value loc => exact performs_return hc hk hn
  | declare name type value mutable loc =>
    refine .of_node hk (hret (by simp)) ?_
    obtain ⟨T, h⟩ := does_declare hc e.pos value loc
    rw [hn]
    exact ⟨T, h.begin loc⟩
  | assign target value loc =>
    refine .of_node hk (hret (by simp)) ?_
    obtain ⟨T, h⟩ := does_assign hc e.pos target value loc
    rw [hn]
    exact ⟨T, h.begin loc⟩
  | evaluate value loc =>
    refine .of_node hk (hret (by simp)) ?_
    obtain ⟨T, h⟩ := does_evaluate hc e.pos loc value
    rw [hn]
    exact ⟨T, (h.map Prod.snd fun _ => .refl _).begin loc⟩
  | branch test t el loc | loop test body loc =>
    refine .of_node hk (hret (by simp)) ?_
    obtain ⟨T, h⟩ := does_inspect hc e.pos loc test
    rw [hn]
    exact ⟨T, h.begin loc⟩
  | select scrutinee arms type loc =>
    refine .of_node hk (hret (by simp)) ?_
    rw [hn]
    simp only [executeNode, nodeDeeds, NodeTries]
    cases hp : scrutinee.place? (c.meaning e.pos) with
    | some p =>
      have h :
          c.Does id (fun s => Prod.snd <$> c.access e.pos (scrutinee.loc.orElse loc) s (.read p))
          [.access (.read p)] True (Only (.read p)) := does_read.map Prod.snd fun _ => .refl _
      refine ⟨True, ?_⟩
      rw [funext fun s : Session => scrutinize_place hp (s.begin loc)]
      exact h.begin loc
    | none =>
      obtain ⟨T, h⟩ := does_evaluate hc e.pos loc scrutinee
      refine ⟨T, ?_⟩
      rw [funext fun s : Session => scrutinize_value hp (s.begin loc)]
      exact (h.map Prod.snd fun _ => .refl _).begin loc
  | foreign kind =>
    refine .of_node hk (hret (by simp)) ⟨False, ?_⟩
    rw [hn]
    refine .congr_tries (A := Silent) (.fail fun s r hr => ?_) fun s a u => Iff.rfl
    cases hr
  | block b =>
    exact .of_idle hk (hret (by simp)) (by simp [hn, executeNode]) (by rw [hn]; rfl)
      (by simp [hn, NodeTries])

/-- Every event does its deeds. -/
theorem performs (hc : c.tracksLoans = true) (e : Event) : c.Performs e := by
  cases hk : e.kind with
  | enter => exact performs_enter hk
  | exit => exact performs_exit hk
  | step =>
    cases hn : e.node with
    | stmt stmt => exact performs_stmt hc hk hn
    | arm arm sel =>
      cases sel with
      | some sel => exact performs_arm hc hk hn
      | none =>
        exact .of_idle hk (by simp [Event.isReturn, hk, hn]) (by simp [hn, executeNode])
          (by rw [hn]; rfl) (by simp [hn, NodeTries])
    | function | param p =>
      exact .of_idle hk (by simp [Event.isReturn, hk, hn]) (by simp [hn, executeNode])
        (by rw [hn]; rfl) (by simp [hn, NodeTries])

end Context

end Ownership
