import Ownership.Proofs.Loops.Likeness

/-!
# Rules in sessions that are alike

Every rule for a statement, for the header of an arm and for the end of a scope is put together
from accesses, from changes of states that nothing checks, and from new holders of loans. If it
finds nothing in one session, it goes the same way in a session that is like it.
-/

namespace Ownership

namespace Context

variable {c : Context} {same : Prop} {s t s' : Session} {p : Place} {pos : Int} {span loc : Span}
  {held held' : List Nat} {e value : Expr} {l : Loan} {viaReturn : Bool} {scope : Scope}
  {scrutinee : Option Place}

/-! ### Evaluations -/

lemma Like.carried (h : c.Like same s t) (p : Place) (pos : Int) (hsame : same) :
    c.carried p pos t = c.carried p pos s := by
  unfold Context.carried
  rw [Session.carriedBy_congr c.tree pos (h.loans hsame)]

variable (hc : c.tracksLoans = true)

include hc

section

variable (h : c.Like same s t)

include h

lemma Like.perform (r : Request) : c.EchoesHeld same (c.perform pos s r) (c.perform pos t r) := by
  cases r with
  | fail f => exact fun _ hr => nomatch hr
  | place demand p span kept =>
    rw [perform_place, perform_place]
    refine .map (.after fun _ => h.access hc _) id ?_
    rintro k k' ⟨hlike, htaken⟩
    refine ⟨hlike, fun hsame => ?_⟩
    dsimp only
    rw [hlike.carried p pos hsame, htaken hsame]

/-- Requests that find nothing one after another are met alike one after another. -/
lemma Like.performAll (rs : List Request) :
    c.EchoesHeld same (c.performAll pos s rs) (c.performAll pos t rs) := by
  induction rs generalizing s t with
  | nil => exact .ok fun _ => ⟨h, fun _ => rfl⟩
  | cons r rest ih =>
    rw [performAll_cons, performAll_cons]
    refine (h.perform hc r).bind (fun hm hq => ?_) fun {k k'} hk => (ih hk.1).map id ?_
    · obtain ⟨m, hrest, rfl⟩ := map_eq_ok.mp hm
      obtain ⟨T, hT⟩ := does_performAll hc pos rest
      have hgrows := hT.grows hrest
      exact List.prefix_nil.mp (hq ▸ hgrows)
    · rintro m m' ⟨hlike, hmore⟩
      refine ⟨hlike, fun hsame => ?_⟩
      dsimp only
      rw [hk.2 hsame, hmore hsame]

lemma Like.evaluate : c.EchoesHeld same (c.evaluate pos loc e s) (c.evaluate pos loc e t) :=
  h.performAll hc _

lemma Like.inspect : c.Echoes same (c.inspect pos loc e s) (c.inspect pos loc e t) := by
  refine (h.performAll hc _).bind (fun hm hq => ?_) fun hk => .ok fun _ => hk.1
  cases hm
  exact hq

end

/-! ### Declarations and assignments -/

omit hc in
lemma Like.introduce (h : c.Like same s t) (hheld : same → held' = held) (pos : Int)
    (state : PlaceState) :
    c.Like same (c.introduce pos state held s) (c.introduce pos state held' t) :=
  h.foldl (fun b hb => (hb.mark (.ofBinding b) state).attach hheld b pos) _

omit hc in
lemma findings_introduce (state : PlaceState) (held : List Nat) (s : Session) :
    (c.introduce pos state held s).findings = s.findings :=
  (updates_introduce pos state held).findings s

lemma Like.declare (h : c.Like same s t) :
    c.Echoes same (c.declare pos value loc s) (c.declare pos value loc t) := by
  refine (h.evaluate hc).bind (fun hm hq => ?_) fun hk => .ok fun _ => hk.1.introduce hk.2 pos _
  cases hm
  rwa [findings_introduce] at hq

lemma Like.store (h : c.Like same s t) (hheld : same → held' = held) :
    c.Echoes same (c.store pos span p held s) (c.store pos span p held' t) := by
  rw [store_eq, store_eq]
  refine .map (.after fun _ => h.access hc _) (fun hq => ?_) fun hk => ?_
  · split at hq <;> exact hq
  · split
    · exact hk.1.attach hheld p.base pos
    · exact hk.1

lemma Like.assign (h : c.Like same s t) {target value : Expr} {loc : Span} :
    c.Echoes same (c.assign pos target value loc s) (c.assign pos target value loc t) := by
  unfold Context.assign
  cases target.place? (c.meaning pos) with
  | none => exact (h.evaluate hc).bind (fun hm => nomatch hm) fun _ _ hm => nomatch hm
  | some p =>
    refine (h.evaluate hc).bind (fun {k _} hm hq => ?_) fun hk => hk.1.store hc hk.2
    obtain ⟨T, hT⟩ := does_store hc pos (target.loc.orElse loc) p
    exact List.prefix_nil.mp (hq ▸ (hT k.1).grows hm)

/-! ### Loans that outlive their source -/

omit hc

lemma onlyLoans_reportDangling (h : s.OnlyLoans) :
    (c.reportDangling l pos span viaReturn s).OnlyLoans :=
  Session.OnlyLoans.report (s := { s with dangling := s.dangling ++ [l.id] }) h rfl

lemma span_reportDangling : (c.reportDangling l pos span viaReturn s).span = s.span :=
  Session.span_report _

/-- What is reported about loans that outlive their source concerns loans. -/
lemma Dangled.adds (h : c.Dangled pos viaReturn s s') :
    s'.span = s.span ∧ (s.OnlyLoans → s'.OnlyLoans) := by
  induction h with
  | refl s => exact ⟨rfl, id⟩
  | report _ _ _ ih =>
    exact ⟨ih.1.trans span_reportDangling, fun hs => ih.2 (onlyLoans_reportDangling hs)⟩

/-- If no loan leaves the function, the search for such loans changes nothing, wherever the loans
are the same. -/
lemma escape_quiet {ids : List Nat} (h : c.escape pos span ids s = .ok s') (hq : s'.findings = []) :
    s' = s ∧ ∀ t : Session, t.loans = s.loans → c.escape pos span ids t = .ok t := by
  induction ids with
  | nil => exact ⟨(Except.ok.inj h).symm, fun _ _ => rfl⟩
  | cons id rest ih =>
    unfold escape at h
    split at h
    · rename_i hnone
      obtain ⟨hs', hall⟩ := ih h
      refine ⟨hs', fun t ht => ?_⟩
      unfold escape
      rw [ht, hnone]
      exact hall t ht
    · rename_i l hl
      obtain ⟨r, hr, h⟩ := bind_eq_ok.mp h
      cases r with
      | some q =>
        obtain ⟨hs', hall⟩ := ih h
        refine ⟨hs', fun t ht => ?_⟩
        unfold escape
        rw [ht, hl]
        simp only [hr, bind, Except.bind]
        exact hall t ht
      | none =>
        have hgrows := (dangled_escape h).still.findings
        rw [hq, List.prefix_nil] at hgrows
        exact absurd hgrows (Session.findings_report_ne_nil _ _)

/-- The same for the end of a scope, wherever the same loans have been reported. -/
lemma checkDangling_quiet {ls : List Loan} (h : c.checkDangling scope ls s = .ok s')
    (hq : s'.findings = []) :
    s' = s ∧ ∀ t : Session, t.dangling = s.dangling → c.checkDangling scope ls t = .ok t := by
  induction ls with
  | nil => exact ⟨(Except.ok.inj h).symm, fun _ _ => rfl⟩
  | cons l rest ih =>
    unfold checkDangling at h
    obtain ⟨dangles, hd, h⟩ := bind_eq_ok.mp h
    cases dangles with
    | true =>
      have hgrows := (dangled_checkDangling h).still.findings
      rw [hq, List.prefix_nil] at hgrows
      exact absurd hgrows (Session.findings_report_ne_nil _ _)
    | false =>
      obtain ⟨hs', hall⟩ := ih h
      refine ⟨hs', fun t ht => ?_⟩
      unfold checkDangling
      rw [ht, hd]
      exact hall t ht

variable (h : c.Like same s t)

include h

lemma Like.escape (hheld : same → held' = held) :
    c.Echoes same (c.escape pos span held s) (c.escape pos span held' t) := by
  intro s' hr hq
  obtain ⟨rfl, hall⟩ := escape_quiet hr hq
  by_cases hsame : same
  · rw [hheld hsame]
    exact ⟨t, hall t (h.loans hsame), h⟩
  · obtain ⟨t', ht'⟩ : ∃ t', c.escape pos span held' t = .ok t' := escape_completes held' h.typed
    obtain ⟨hspan, honly⟩ := (dangled_escape ht').adds
    exact ⟨t', ht', h.still hsame (dangled_escape ht').still hspan (honly h.onlyLoans)⟩

lemma Like.checkDangling :
    c.Echoes same (c.checkDangling scope s.loans s) (c.checkDangling scope t.loans t) := by
  intro s' hr hq
  obtain ⟨rfl, hall⟩ := checkDangling_quiet hr hq
  by_cases hsame : same
  · obtain ⟨hs, ht⟩ := h.dangling hsame
    rw [h.loans hsame]
    exact ⟨t, hall t (ht.trans hs.symm), h⟩
  · obtain ⟨t', ht'⟩ : ∃ t', c.checkDangling scope t.loans t = .ok t' :=
      checkDangling_completes t.loans h.typed
    obtain ⟨hspan, honly⟩ := (dangled_checkDangling ht').adds
    exact ⟨t', ht', h.still hsame (dangled_checkDangling ht').still hspan (honly h.onlyLoans)⟩

/-! ### Ends of scopes and returns -/

lemma Like.exitScope : c.Echoes same (c.exitScope scope s) (c.exitScope scope t) := by
  have hfinish : c.Echoes same (c.finishScope scope s) (c.finishScope scope t) := by
    unfold finishScope
    rw [h.flow.returned]
    cases s.flow.returned with
    | true => exact .ok fun _ => h
    | false => exact (h.destroy scope.id scope.stop).checkDangling
  rw [exitScope_eq, exitScope_eq]
  refine hfinish.bind (fun hm hq => ?_) fun huv => .ok fun _ => ?_
  · cases hm
    exact hq
  · exact huv.congr (huv.flow.foldl_forget _) huv.span ⟨rfl, rfl⟩ rfl ⟨rfl, rfl⟩

lemma Like.leaveFunction (pos : Int) :
    c.Like same (c.leaveFunction pos s) (c.leaveFunction pos t) := by
  have hspan : ∀ u : Session, (c.leaveFunction pos u).span = u.span := fun u =>
    foldl_keeps Session.span (fun v (scope : Scope) => Session.span_destroy v c.tree scope.id pos)
      u.scopes u
  have hdang : ∀ u : Session, (c.leaveFunction pos u).dangling = u.dangling := fun u =>
    foldl_keeps Session.dangling
      (fun v (scope : Scope) => Session.dangling_destroy v c.tree scope.id pos) u.scopes u
  refine h.congr ?_ ?_ ⟨loans_leaveFunction pos s, loans_leaveFunction pos t⟩
    (findings_leaveFunction pos t) ⟨hdang s, hdang t⟩
  · rw [states_leaveFunction, states_leaveFunction]
    exact ⟨rfl, h.flow.states⟩
  · rw [hspan, hspan, h.span]

omit h

include hc

lemma Like.giveBack (h : c.Like same s t) :
    c.Echoes same (c.giveBack pos value loc s) (c.giveBack pos value loc t) := by
  rw [giveBack_eq, giveBack_eq]
  refine ((h.evaluate hc).bind (fun hm hq => ?_) fun hk => hk.1.escape hk.2).map ?_ ?_
  · exact List.prefix_nil.mp (hq ▸ (dangled_escape hm).still.findings)
  · exact fun {m} hq => findings_leaveFunction pos m ▸ hq
  · exact fun huv => huv.leaveFunction pos

/-! ### Selections -/

lemma Like.scrutinize (h : c.Like same s t) : c.Echoes same
    (Prod.snd <$> c.scrutinize pos loc e s) (Prod.snd <$> c.scrutinize pos loc e t) := by
  cases hp : e.place? (c.meaning pos) with
  | none =>
    rw [scrutinize_value hp, scrutinize_value hp]
    exact (h.evaluate hc).map id And.left
  | some p =>
    rw [scrutinize_place hp, scrutinize_place hp]
    exact (h.access hc _).map id And.left

variable (h : c.Like same s t)

include h

omit hc in
lemma Like.touchable (sel : Selection) : c.touchable sel t = c.touchable sel s := by
  unfold Context.touchable
  congr 1
  funext p
  rw [Bool.eq_iff_iff, Option.isNone_iff_eq_none, Option.isNone_iff_eq_none]
  exact h.flow.refusal?_eq_none

lemma Like.takeApart {takes : Bool} : c.Echoes same
    (c.takeApart pos span scrutinee takes s) (c.takeApart pos span scrutinee takes t) := by
  unfold Context.takeApart
  split
  · refine .after fun _ => (h.access hc _).bind (fun hm hq => ?_) fun hk => .ok fun _ => hk.1
    cases hm
    exact hq
  · exact .ok fun _ => h

lemma Like.shareLoans {byRef : Bool} {binders : List (Binding × Ty)} : c.Echoes same
    (c.shareLoans pos span byRef binders scrutinee s)
    (c.shareLoans pos span byRef binders scrutinee t) := by
  have hattach : ∀ {u v : Session} {held held' : List Nat} (bs : List Binding), c.Like same u v →
      (same → held' = held) → c.Like same (bs.foldl (fun s b => s.attach c.tree held b pos) u)
        (bs.foldl (fun s b => s.attach c.tree held' b pos) v) :=
    fun bs huv hheld => huv.foldl (fun b hb => hb.attach hheld b pos) bs
  unfold Context.shareLoans
  cases scrutinee with
  | none => exact .ok fun _ => h
  | some p =>
    dsimp only
    split
    · exact .ok fun _ => h
    · cases byRef with
      | true =>
        refine (h.lend hc).bind (fun {k _} hm hq => ?_) fun hk => .ok fun _ => hattach _ hk.1 hk.2
        cases hm
        exact List.prefix_nil.mp (hq ▸ (mild_attachAll (c := c) _ k.1 pos k.2).findings)
      | false => exact .ok fun _ => hattach _ h (h.carried p pos)

lemma Like.bindArm {sel : Selection} {arm : Arm} : c.Echoes same
    (c.bindArm sel scrutinee pos arm s) (c.bindArm sel scrutinee pos arm t) := by
  unfold Context.bindArm
  rw [h.span]
  refine .after fun {types} _ => .after fun _ => ?_
  have hfill : c.Like same (fillBinders ((c.tree.declaredBy pos).zip types) s)
      (fillBinders ((c.tree.declaredBy pos).zip types) t) :=
    h.foldl (fun b hb => hb.mark (.ofBinding b.1) .owned) _
  refine (hfill.takeApart hc).bind (fun hm hq => ?_) fun huv => huv.shareLoans hc
  obtain ⟨T, hT⟩ := does_shareLoans hc arm.byRef ((c.tree.declaredBy pos).zip types) scrutinee
  exact List.prefix_nil.mp (hq ▸ (hT pos _).grows hm)

/-- Each rule is put together from steps that are repeated. -/
lemma Like.executeNode (node : Node) :
    c.Echoes same (c.executeNode pos s node) (c.executeNode pos t node) := by
  cases node with
  | function => exact .ok fun _ => h
  | param p => exact .ok fun _ => h
  | arm arm sel =>
    cases sel with
    | none => exact .ok fun _ => h
    | some sel =>
      simp only [Context.executeNode]
      rw [h.touchable]
      exact h.bindArm hc
  | stmt stmt =>
    cases stmt with
    | declare name type value mutable loc => exact (h.begin loc).declare hc
    | assign target value loc => exact (h.begin loc).assign hc
    | evaluate value loc => exact ((h.begin loc).evaluate hc).map id And.left
    | ret value loc => exact (h.begin loc).giveBack hc
    | branch test yes no loc | loop test body loc => exact (h.begin loc).inspect hc
    | select scrutinee arms type loc => exact (h.begin loc).scrutinize hc
    | foreign kind => exact fun _ hr => nomatch hr
    | block b => exact .ok fun _ => h

/-- An event that finds nothing goes the same way in a session that is alike. -/
theorem Like.execute {e : Event} : c.Echoes same (c.execute e s) (c.execute e t) := by
  unfold Context.execute
  cases e.kind with
  | step => exact h.executeNode hc e.node
  | enter =>
    refine .after fun _ => .ok fun _ => ?_
    exact h.congr h.flow h.span ⟨rfl, rfl⟩ rfl ⟨rfl, rfl⟩
  | exit => exact .after fun _ => h.exitScope

end Context

end Ownership
