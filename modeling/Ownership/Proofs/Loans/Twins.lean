import Ownership.Proofs.Moves.Soundness

/-!
# Loans do not change ownership

A walk that tracks loans and one that does not go through a body in step: they keep the same
ownership state, record the same destructions and report the same uses after moves, one like the
other on every walk of a loop. What live loans add are loans and findings of other kinds, and no
rule about ownership looks at these: a repeated finding is dropped because of one of its own kind
only.
-/

namespace Ownership

/-- Whether a violation is the use of a place after a move. -/
def Violation.isUseAfterMove : Violation → Bool
  | useAfterMove .. => true
  | _ => false

lemma Violation.isUseAfterMove_iff_code (v : Violation) :
    v.isUseAfterMove = true ↔ v.code = "E_USE_AFTER_MOVE" := by
  cases v <;> simp [isUseAfterMove, code]

lemma Violation.isUseAfterMove_of_cites_none {v : Violation} (h : v.citedMove? = none) :
    v.isUseAfterMove = false := by
  cases v with
  | useAfterMove => cases h
  | _ => rfl

lemma Finding.isUseAfterMove_of_repeats {f g : Finding} (h : f.repeats g = true) :
    f.violation.isUseAfterMove = g.violation.isUseAfterMove := by
  simp only [Finding.repeats, Bool.and_eq_true, decide_eq_true_eq] at h
  rw [Bool.eq_iff_iff, Violation.isUseAfterMove_iff_code, Violation.isUseAfterMove_iff_code, h.1.1]

/-- What a snapshot says about ownership: where and in which walk it was made, and the state. -/
def Snapshot.ownership (x : Snapshot) : Int × Nat × Flow := (x.pos, x.replay, x.flow)

/-- The same function, walked with or without loans. -/
def Context.tracking (c : Context) (loans : Bool) : Context := { c with tracksLoans := loans }

/-! ### Sessions that agree on ownership -/

namespace Session

/-- The uses after moves that have been reported. -/
def usesAfterMove (s : Session) : List Finding := s.findings.filter (·.violation.isUseAfterMove)

/-- Whether two sessions agree in all that concerns ownership. -/
structure Twin (s t : Session) : Prop where
  flow : t.flow = s.flow
  scopes : t.scopes = s.scopes
  replay : t.replay = s.replay
  span : t.span = s.span
  drops : t.drops = s.drops
  trace : t.trace.map Snapshot.ownership = s.trace.map Snapshot.ownership
  uses : t.usesAfterMove = s.usesAfterMove

lemma usesAfterMove_report_other (s : Session) {f : Finding}
    (hf : f.violation.isUseAfterMove = false) : (s.report f).usesAfterMove = s.usesAfterMove := by
  unfold report
  split
  · rfl
  · simp [usesAfterMove, hf]

lemma usesAfterMove_report (s : Session) {f : Finding} (hf : f.violation.isUseAfterMove = true) :
    (s.report f).usesAfterMove = if s.replay > 0 && s.usesAfterMove.any f.repeats then
      s.usesAfterMove else s.usesAfterMove ++ [f] := by
  have hany : s.findings.any f.repeats = s.usesAfterMove.any f.repeats := by
    rw [Bool.eq_iff_iff, List.any_eq_true, List.any_eq_true]
    constructor
    · rintro ⟨g, hg, hrep⟩
      exact ⟨g, List.mem_filter.mpr ⟨hg, Finding.isUseAfterMove_of_repeats hrep ▸ hf⟩, hrep⟩
    · rintro ⟨g, hg, hrep⟩
      exact ⟨g, (List.mem_filter.mp hg).1, hrep⟩
  rw [report, hany]
  split
  · rfl
  · simp [usesAfterMove, hf]

namespace Twin

variable {s m t s' t' : Session}

lemma refl (s : Session) : s.Twin s := ⟨rfl, rfl, rfl, rfl, rfl, rfl, rfl⟩

variable (h : s.Twin t)

include h

lemma symm : t.Twin s :=
  ⟨h.flow.symm, h.scopes.symm, h.replay.symm, h.span.symm, h.drops.symm, h.trace.symm, h.uses.symm⟩

omit h in
lemma trans (h : s.Twin m) (h' : m.Twin t) : s.Twin t :=
  ⟨h'.flow.trans h.flow, h'.scopes.trans h.scopes, h'.replay.trans h.replay, h'.span.trans h.span,
    h'.drops.trans h.drops, h'.trace.trans h.trace, h'.uses.trans h.uses⟩

lemma congr (hs : s.Twin s') (ht : t.Twin t') : s'.Twin t' := (hs.symm.trans h).trans ht

omit h in
lemma of_aside (h : s.Aside s') : s.Twin s' := by
  refine ⟨h.flow, h.scopes, h.replay, h.span, h.drops, by rw [h.trace], ?_⟩
  obtain ⟨more, hmore, hcite⟩ := h.findings
  have hnone : more.filter (·.violation.isUseAfterMove) = [] := by
    rw [List.filter_eq_nil_iff]
    intro f hf
    rw [Violation.isUseAfterMove_of_cites_none (hcite f hf)]
    exact Bool.false_ne_true
  rw [usesAfterMove, hmore, List.filter_append, hnone, List.append_nil]
  rfl

omit h in
lemma report_other (s : Session) {f : Finding} (hf : f.violation.isUseAfterMove = false) :
    s.Twin (s.report f) := by
  have huses := usesAfterMove_report_other s hf
  rw [report_eq] at huses ⊢
  exact ⟨rfl, rfl, rfl, rfl, rfl, rfl, huses⟩

lemma report (f : Finding) : (s.report f).Twin (t.report f) := by
  cases hf : f.violation.isUseAfterMove with
  | false => exact h.congr (report_other s hf) (report_other t hf)
  | true =>
    have huses : (t.report f).usesAfterMove = (s.report f).usesAfterMove := by
      rw [usesAfterMove_report t hf, usesAfterMove_report s hf, h.replay, h.uses]
    rw [report_eq s, report_eq t] at huses ⊢
    exact ⟨h.flow, h.scopes, h.replay, h.span, h.drops, h.trace, huses⟩

lemma withFlow {f g : Flow} (hf : g = f) : (s.withFlow f).Twin (t.withFlow g) :=
  ⟨hf, h.scopes, h.replay, h.span, h.drops, h.trace, h.uses⟩

lemma mark (p : Place) (st : PlaceState) : (s.mark p st).Twin (t.mark p st) :=
  h.withFlow (by rw [h.flow])

lemma begin (loc : Span) : (s.begin loc).Twin (t.begin loc) :=
  ⟨h.flow, h.scopes, h.replay, rfl, h.drops, h.trace, h.uses⟩

lemma push (scope : Scope) : (s.push scope).Twin (t.push scope) :=
  ⟨h.flow, congrArg (scope :: ·) h.scopes, h.replay, h.span, h.drops, h.trace, h.uses⟩

lemma snapshot (pos : Int) : (s.snapshot pos).Twin (t.snapshot pos) := by
  refine ⟨h.flow, h.scopes, h.replay, h.span, h.drops, ?_, h.uses⟩
  simp only [Session.snapshot, List.map_append, h.trace, List.map_cons, Snapshot.ownership, h.flow,
    h.replay]

omit h in
lemma foldl {β : Type} {g g' : Session → β → Session}
    (hg : ∀ {s t : Session} (b : β), s.Twin t → (g s b).Twin (g' t b)) (h : s.Twin t) (l : List β) :
    (l.foldl g s).Twin (l.foldl g' t) := by
  induction l generalizing s t with
  | nil => exact h
  | cons b l ih => exact ih (hg b h)

/-! ### Destructions -/

lemma recordDrop (d : Drop) : (s.recordDrop d).Twin (t.recordDrop d) := by
  unfold Session.recordDrop
  rw [h.replay, h.drops]
  split
  · exact h
  · exact ⟨h.flow, h.scopes, rfl, h.span, rfl, h.trace, h.uses⟩

lemma drop (pos : Int) (b : Binding) : (s.drop pos b).Twin (t.drop pos b) := by
  unfold Session.drop
  rw [h.flow]
  split
  · exact h.recordDrop _
  · exact h.recordDrop _
  · exact h
  · exact h

lemma destroy (tree : ScopeTree) (scope : Nat) (pos : Int) :
    (s.destroy tree scope pos).Twin (t.destroy tree scope pos) :=
  h.foldl (fun b h => h.drop pos b) _

lemma close (tree : ScopeTree) (scope : Nat) : (s.close tree scope).Twin (t.close tree scope) :=
  ⟨congrArg (List.foldl Flow.forget · (tree.bindingsOf scope)) h.flow, congrArg List.tail h.scopes,
    h.replay, h.span, h.drops, h.trace, h.uses⟩

end Twin

end Session

/-! ### Computations in step -/

namespace Fault

variable {α α' β β' : Type} {R : α → α' → Prop} {S : β → β' → Prop} {x : Except Fault α}
  {x' : Except Fault α'}

/-- Whether two computations end with related results, if both of them succeed. -/
def InStep (R : α → α' → Prop) (x : Except Fault α) (x' : Except Fault α') : Prop :=
  ∀ a a', x = .ok a → x' = .ok a' → R a a'

lemma InStep.ok {a : α} {a' : α'} (h : R a a') : InStep R (.ok a) (.ok a') := by
  intro b b' hb hb'
  cases hb
  cases hb'
  exact h

lemma InStep.bind {f : α → Except Fault β} {f' : α' → Except Fault β'} (h : InStep R x x')
    (hf : ∀ a a', R a a' → InStep S (f a) (f' a')) : InStep S (x >>= f) (x' >>= f') := by
  intro b b' hb hb'
  obtain ⟨a, ha, hb⟩ := bind_eq_ok.mp hb
  obtain ⟨a', ha', hb'⟩ := bind_eq_ok.mp hb'
  exact hf a a' (h a a' ha ha') b b' hb hb'

lemma InStep.map {f : α → β} {f' : α' → β'} (h : InStep R x x')
    (hf : ∀ a a', R a a' → S (f a) (f' a')) : InStep S (f <$> x) (f' <$> x') := by
  rw [map_eq_pure_bind, map_eq_pure_bind]
  exact h.bind fun a a' ha => .ok (hf a a' ha)

/-- A computation that both begin with has one result. -/
lemma InStep.after {f : α → Except Fault β} {f' : α → Except Fault β'}
    (hf : ∀ a, InStep S (f a) (f' a)) : InStep S (x >>= f) (x >>= f') := by
  have hsame : InStep Eq x x := fun a a' ha ha' => ok_inj ha ha'
  exact hsame.bind fun a a' ha => ha ▸ hf a

end Fault

open Fault (InStep)

/-! ### Rules in step -/

/-- Whether evaluations end in twins; the loans at hand do not matter. -/
def Session.Twins (k k' : List Nat × Session) : Prop := k.2.Twin k'.2

namespace Context

open Session (Twin Twins)

variable {c : Context} {loans : Bool} {s t s' : Session} {p : Place} {pos : Int} {span loc : Span}
  {k : List Nat × Session} {scrutinee : Option Place}

lemma twin_lend {kind : LoanKind} (h : c.lend p kind pos span s = .ok k) : s.Twin k.2 := by
  rcases lend_aside h with ha | ⟨q, -, hk⟩
  · exact .of_aside ha
  · rw [hk]
    exact .report_other s rfl

variable (h : s.Twin t)

include h

lemma twin_read : (c.read p pos span s).Twin ((c.tracking loans).read p pos span t) := by
  unfold read
  rw [h.flow]
  split
  · exact h.report _
  · exact h.congr (.of_aside notes_noteRead.aside) (.of_aside notes_noteRead.aside)

lemma twin_move : (c.move p pos span s).Twin ((c.tracking loans).move p pos span t) := by
  unfold move
  rw [h.flow]
  split
  · exact h.report _
  · have hnote : (c.noteMove p pos span s).Twin ((c.tracking loans).noteMove p pos span t) :=
      h.congr (.of_aside notes_noteMove.aside) (.of_aside notes_noteMove.aside)
    exact hnote.withFlow (by rw [hnote.flow])

lemma twin_write : (c.write p pos span s).Twin ((c.tracking loans).write p pos span t) := by
  unfold write
  rw [h.flow]
  split
  · exact h.report _
  · have hnote : (c.noteWrite p pos span (c.noteMutability p pos span s)).Twin
        ((c.tracking loans).noteWrite p pos span
          ((c.tracking loans).noteMutability p pos span t)) :=
      h.congr (.of_aside (notes_noteMutability.aside.trans notes_noteWrite.aside))
        (.of_aside (notes_noteMutability.aside.trans notes_noteWrite.aside))
    exact hnote.withFlow (by rw [hnote.flow])

lemma twins_access (a : Access) :
    InStep Twins (c.access pos span s a) ((c.tracking loans).access pos span t a) := by
  cases a with
  | read p => exact .ok (twin_read h)
  | move p => exact .ok (twin_move h)
  | write p => exact .ok (twin_write h)
  | lend p kind => exact fun k k' hk hk' => h.congr (twin_lend hk) (twin_lend hk')

lemma twins_perform (r : Request) :
    InStep Twins (c.perform pos s r) ((c.tracking loans).perform pos t r) := by
  cases r with
  | fail fault => exact fun _ _ hk => nomatch hk
  | place demand p span kept =>
    have haccess : InStep Twins (c.demanded p demand >>= c.access pos span s)
        (c.demanded p demand >>= (c.tracking loans).access pos span t) := .after (twins_access h)
    rw [perform_place, perform_place]
    exact haccess.map fun _ _ hk => hk

lemma twins_performAll (rs : List Request) :
    InStep Twins (c.performAll pos s rs) ((c.tracking loans).performAll pos t rs) := by
  induction rs generalizing s t with
  | nil => exact .ok h
  | cons r rest ih =>
    rw [performAll_cons, performAll_cons]
    exact (twins_perform h r).bind fun _ _ hk => (ih hk).map fun _ _ hk => hk

lemma twin_inspect (test : Expr) :
    InStep Twin (c.inspect pos loc test s) ((c.tracking loans).inspect pos loc test t) :=
  (twins_performAll h _).bind fun _ _ hk => .ok hk

lemma twin_introduce (state : PlaceState) (held held' : List Nat) :
    (c.introduce pos state held s).Twin ((c.tracking loans).introduce pos state held' t) :=
  h.foldl (fun b h => (h.mark (.ofBinding b) state).congr (.of_aside (.attach _ _ _ _ _))
    (.of_aside (.attach _ _ _ _ _))) (c.tree.declaredBy pos)

lemma twin_declare (value : Expr) :
    InStep Twin (c.declare pos value loc s) ((c.tracking loans).declare pos value loc t) :=
  (twins_performAll h _).bind fun k k' hk => .ok (twin_introduce hk _ k.1 k'.1)

lemma twin_store (held held' : List Nat) :
    InStep Twin (c.store pos span p held s) ((c.tracking loans).store pos span p held' t) := by
  have haccess : InStep Twins (c.storage p >>= c.access pos span s)
      (c.storage p >>= (c.tracking loans).access pos span t) := .after (twins_access h)
  have hattach : ∀ (u : Session) (held : List Nat),
      u.Twin (if c.storage p = .ok (.write p) then u.attach c.tree held p.base pos else u) := by
    intro u held
    split
    · exact .of_aside (.attach _ _ _ _ _)
    · exact .refl u
  rw [store_eq, store_eq]
  exact haccess.map fun k k' hk => Twin.congr hk (hattach k.2 held) (hattach k'.2 held')

lemma twin_assign (target value : Expr) : InStep Twin (c.assign pos target value loc s)
    ((c.tracking loans).assign pos target value loc t) := by
  refine (twins_performAll h _).bind fun k k' hk => ?_
  have hmeaning : (c.tracking loans).meaning pos = c.meaning pos := rfl
  dsimp only
  rw [hmeaning]
  cases target.place? (c.meaning pos) with
  | none => exact fun _ _ hs => nomatch hs
  | some p => exact twin_store hk k.1 k'.1

lemma twin_leaveFunction :
    (c.leaveFunction pos s).Twin ((c.tracking loans).leaveFunction pos t) := by
  unfold leaveFunction
  rw [h.scopes]
  have hdrops : (s.scopes.foldl (fun s scope => s.destroy c.tree scope.id pos) s).Twin
      (s.scopes.foldl (fun s scope => s.destroy c.tree scope.id pos) t) :=
    h.foldl (fun scope h => h.destroy c.tree scope.id pos) s.scopes
  exact hdrops.withFlow (congrArg (fun f : Flow => { f with returned := true }) hdrops.flow)

lemma twin_giveBack (value : Expr) :
    InStep Twin (c.giveBack pos value loc s) ((c.tracking loans).giveBack pos value loc t) := by
  rw [giveBack_eq, giveBack_eq]
  refine .map (R := Twin) ?_ fun _ _ hm => twin_leaveFunction hm
  exact (twins_performAll h _).bind fun k k' hk m m' hm hm' => Twin.congr hk
    (.of_aside (dangled_escape hm).aside) (.of_aside (dangled_escape hm').aside)

lemma twin_scrutinize (e : Expr) : InStep Twin (Prod.snd <$> c.scrutinize pos loc e s)
    (Prod.snd <$> (c.tracking loans).scrutinize pos loc e t) := by
  cases hp : e.place? (c.meaning pos) with
  | none =>
    rw [scrutinize_value hp, scrutinize_value (c := c.tracking loans) hp]
    exact (twins_performAll h _).map fun _ _ hk => hk
  | some p =>
    rw [scrutinize_place hp, scrutinize_place (c := c.tracking loans) hp]
    exact .ok (twin_read h)

omit h in
lemma takesAny_tracking (types : List Ty) :
    (c.tracking loans).takesAny types = c.takesAny types := by
  induction types with
  | nil => rfl
  | cons ty rest ih =>
    unfold takesAny
    rw [ih]
    rfl

lemma twin_takeApart (takes : Bool) : InStep Twin (c.takeApart pos span scrutinee takes s)
    ((c.tracking loans).takeApart pos span scrutinee takes t) := by
  cases takes with
  | false => exact .ok h
  | true =>
    cases scrutinee with
    | none => exact .ok h
    | some p =>
      have htake : InStep Twin
          (c.consumption p >>= fun a => c.access pos span s a >>= fun k => pure k.2)
          (c.consumption p >>= fun a => (c.tracking loans).access pos span t a >>=
            fun k => pure k.2) :=
        .after fun a => (twins_access h a).bind fun _ _ hk => .ok hk
      exact htake

omit h in
/-- Sharing loans does not concern ownership. -/
lemma twin_shareLoans {byRef : Bool} {binders : List (Binding × Ty)}
    (h : c.shareLoans pos span byRef binders scrutinee s = .ok s') : s.Twin s' := by
  cases scrutinee with
  | none =>
    cases h
    exact .refl s
  | some p =>
    unfold shareLoans at h
    dsimp only at h
    by_cases hno : (!c.tracksLoans || ((binders.filter (·.2.isLocalRef)).map (·.1)).isEmpty) = true
    · rw [if_pos hno] at h
      cases h
      exact .refl s
    · rw [if_neg hno] at h
      cases byRef with
      | true =>
        obtain ⟨k, hk, h⟩ := bind_eq_ok.mp h
        cases h
        exact (twin_lend hk).trans (.of_aside (.attachAll k.2 _ _ _ _))
      | false =>
        cases h
        exact .of_aside (.attachAll s _ _ _ _)

lemma twin_bindArm (sel : Selection) (arm : Arm) :
    InStep Twin (c.bindArm sel scrutinee pos arm s)
      ((c.tracking loans).bindArm sel scrutinee pos arm t) := by
  have hfill : ∀ types, (fillBinders ((c.tree.declaredBy pos).zip types) s).Twin
      (fillBinders ((c.tree.declaredBy pos).zip types) t) :=
    fun types => h.foldl (fun b h => h.mark (.ofBinding b.1) .owned) _
  unfold bindArm
  simp only [takesAny_tracking, h.span]
  refine .after (x := c.armTypes sel arm) fun types => .after fun takes => ?_
  exact (twin_takeApart (hfill types) takes).bind fun m m' hm s' t' hs ht =>
    hm.congr (twin_shareLoans hs) (twin_shareLoans ht)

lemma twin_exitScope (scope : Scope) :
    InStep Twin (c.exitScope scope s) ((c.tracking loans).exitScope scope t) := by
  rw [exitScope_eq, exitScope_eq]
  refine .bind (R := Twin) ?_ fun _ _ hm => .ok (hm.close c.tree scope.id)
  unfold finishScope
  rw [h.flow]
  split
  · exact .ok h
  · exact fun m m' hm hm' => (h.destroy c.tree scope.id scope.stop).congr
      (.of_aside (dangled_checkDangling hm).aside) (.of_aside (dangled_checkDangling hm').aside)

/-- Every rule goes on in step. -/
lemma twin_executeNode (node : Node) :
    InStep Twin (c.executeNode pos s node) ((c.tracking loans).executeNode pos t node) := by
  cases node with
  | function | param p => exact .ok h
  | arm a sel =>
    cases sel with
    | none => exact .ok h
    | some sel =>
      have htouch : (c.tracking loans).touchable sel t = c.touchable sel s := by
        unfold touchable
        rw [h.flow]
        rfl
      rw [executeNode, executeNode, htouch]
      exact twin_bindArm h sel a
  | stmt stmt =>
    cases stmt with
    | block b => exact .ok h
    | declare name type value mutable loc => exact twin_declare (h.begin loc) value
    | assign target value loc => exact twin_assign (h.begin loc) target value
    | evaluate value loc => exact (twins_performAll (h.begin loc) _).map fun _ _ hk => hk
    | ret value loc => exact twin_giveBack (h.begin loc) value
    | branch test _ _ loc | loop test _ loc => exact twin_inspect (h.begin loc) test
    | select scrutinee _ _ loc => exact twin_scrutinize (h.begin loc) scrutinee
    | foreign kind => exact fun _ _ hs => nomatch hs

/-- Twins stay twins when an event is executed. -/
theorem twin_execute (e : Event) :
    InStep Twin (c.execute e s) ((c.tracking loans).execute e t) := by
  have hscope : ∀ {β : Type} {R : β → β → Prop} {f f' : Scope → Except Fault β},
      (∀ scope, InStep R (f scope) (f' scope)) →
        InStep R (c.tree.scopeOf e.label e.node.kindName >>= f)
          ((c.tracking loans).tree.scopeOf e.label e.node.kindName >>= f') := .after
  unfold execute
  cases e.kind with
  | step => exact twin_executeNode h e.node
  | enter =>
    rw [map_eq_pure_bind, map_eq_pure_bind]
    exact hscope fun scope => .ok (h.push scope)
  | exit => exact hscope fun scope => twin_exitScope h scope

omit h

lemma twin_replayLoop {again again' : Session → Except Fault Session}
    (hagain : ∀ {s t : Session}, s.Twin t → InStep Twin (again s) (again' t)) (n : Nat)
    {f f' : Flow} (hf : f' = f) (h : s.Twin t) :
    InStep Twin (replayLoop again n f s) (replayLoop again' n f' t) := by
  subst hf
  induction n generalizing f' s t with
  | zero => exact .ok (h.withFlow rfl)
  | succ n ih =>
    have hstart : Twin { s with flow := f', replay := s.replay + 1 }
        { t with flow := f', replay := t.replay + 1 } :=
      ⟨rfl, h.scopes, congrArg (· + 1) h.replay, h.span, h.drops, h.trace, h.uses⟩
    refine (hagain hstart).bind fun m m' hround => ?_
    rw [hround.flow]
    exact ih ⟨rfl, hround.scopes, h.replay, hround.span, hround.drops, hround.trace,
      hround.uses⟩

end Context

/-- Twins stay twins along a walk. -/
theorem Skeleton.twin_walk {c : Context} {loans : Bool} (k : Skeleton) {s t : Session}
    (h : s.Twin t) : InStep Session.Twin (k.walk c s) (k.walk (c.tracking loans) t) := by
  induction k generalizing s t with
  | done => exact .ok h
  | event e => exact Context.twin_execute h e
  | scope start stop node kind body ih =>
    exact (Context.twin_execute h _).bind fun _ _ hm => (ih hm).bind fun _ _ hm' =>
      Context.twin_execute hm' _
  | noted pos k ih => exact (ih h).bind fun _ _ hm => .ok (hm.snapshot pos)
  | seq k l ihk ihl =>
    refine (ihk h).bind fun m m' hm => ?_
    rw [hm.flow]
    split
    · exact .ok hm
    · exact ihl hm
  | fork k l ihk ihl =>
    refine (ihk h).bind fun s₁ t₁ h₁ => (ihl (h₁.withFlow h.flow)).bind fun s₂ t₂ h₂ => .ok ?_
    exact h₂.withFlow (by rw [h₁.flow, h₂.flow])
  | loop pos test body loc inner ih =>
    have htest : ∀ {u v : Session}, u.Twin v → InStep Session.Twin
        (c.execute (.test pos test body loc) u)
        ((c.tracking loans).execute (.test pos test body loc) v) :=
      fun huv => Context.twin_execute huv _
    refine (htest h).bind fun m m' hm => (ih hm).bind fun s₁ t₁ h₁ => ?_
    exact Context.twin_replayLoop (fun huv => (htest huv).bind fun _ _ => ih) c.replays
      (by rw [hm.flow, h₁.flow]) h₁

namespace Context

variable {c : Context} {s t : Session}

lemma twin_run (loans : Bool) (hs : c.run = .ok s) (ht : (c.tracking loans).run = .ok t) :
    s.Twin t := by
  obtain ⟨s₀, s₁, h₀, h₁, hexit⟩ := run_cases hs
  obtain ⟨t₀, t₁, h₀', h₁', hexit'⟩ := run_cases ht
  obtain rfl : t₀ = s₀ := ok_inj h₀' h₀
  exact twin_execute (c.function.skeleton.twin_walk (.refl t₀) _ _ h₁ h₁') _ _ _ hexit hexit'

/-- Tracking loans does not change ownership: after every statement of every walk the states, move
sites and ends of paths are the same, in the same order, and so is the status of every binding; the
destructions and the uses after moves are the same too. -/
theorem ownership_same_without_loans (hs : (c.tracking true).run = .ok s)
    (ht : (c.tracking false).run = .ok t) :
    t.trace.map Snapshot.ownership = s.trace.map Snapshot.ownership ∧
      (∀ b, t.trace.map (·.flow.status b) = s.trace.map (·.flow.status b)) ∧
      t.flow = s.flow ∧ t.drops = s.drops ∧ t.usesAfterMove = s.usesAfterMove := by
  have h : s.Twin t := twin_run false hs ht
  refine ⟨h.trace, fun b => ?_, h.flow, h.drops, h.uses⟩
  have hstatus := congrArg (List.map fun o : Int × Nat × Flow => o.2.2.status b) h.trace
  rwa [List.map_map, List.map_map] at hstatus

end Context

/-- Moves `d` in a loop, which its second walk reports, and writes `s` while `r` borrows it. -/
def Function.strain : Function where
  name := "strain"
  params := [⟨"k", some ⟨2⟩, false, .unknown⟩, ⟨"d", some ⟨1⟩, false, .unknown⟩,
    ⟨"s", some ⟨1⟩, true, .unknown⟩]
  body := .mk [.declare "r" none (.borrow (.var "s" .unknown) false .unknown) false .unknown,
    .loop (.var "k" .unknown) (.mk [.declare "t" none (.var "d" .unknown) false .unknown] .unknown)
      .unknown,
    .assign (.var "s" .unknown) (.literal (.text "t") .unknown) .unknown,
    .evaluate (.var "r" .unknown) .unknown] .unknown

namespace Context

/-- A finding about loans behind a loop that is walked twice: only one of the walks reports it, and
both report the use after a move in the loop. -/
theorem ownership_same_without_loans_strain :
    ∃ c s t, build { types := .texts } .strain {} = .ok c ∧
    (c.tracking true).run = .ok s ∧ (c.tracking false).run = .ok t ∧
    s.findings.map (·.violation.code) = ["E_USE_AFTER_MOVE", "E_WRITE_WHILE_BORROWED"] ∧
    t.findings.map (·.violation.code) = ["E_USE_AFTER_MOVE"] ∧ s.drops.length = 4 ∧
    s.trace.length = 6 ∧ t.trace.map Snapshot.ownership = s.trace.map Snapshot.ownership ∧
    t.drops = s.drops ∧ t.usesAfterMove = s.usesAfterMove := by
  have hok : ((build { types := .texts } .strain {} >>= fun c => (c.tracking true).run >>= fun s =>
      (c, s, ·) <$> (c.tracking false).run).toOption.any fun (c, s, t) =>
        decide (s.findings.map (·.violation.code) = ["E_USE_AFTER_MOVE", "E_WRITE_WHILE_BORROWED"] ∧
          t.findings.map (·.violation.code) = ["E_USE_AFTER_MOVE"] ∧ s.drops.length = 4 ∧
          s.trace.length = 6)) = true := by
    decide +kernel
  obtain ⟨⟨c, s, t⟩, hall, htest⟩ := Fault.exists_ok hok
  obtain ⟨c, hbuild, hall⟩ := bind_eq_ok.mp hall
  obtain ⟨s, hs, hall⟩ := bind_eq_ok.mp hall
  obtain ⟨t, ht, heq⟩ := map_eq_ok.mp hall
  obtain ⟨rfl, rfl, rfl⟩ : _ ∧ _ ∧ _ := by simpa using heq
  obtain ⟨hfound, hfound', hdrops, htrace⟩ := of_decide_eq_true htest
  obtain ⟨hsame, -, -, hdrops', huses⟩ := ownership_same_without_loans hs ht
  exact ⟨c, s, t, hbuild, hs, ht, hfound, hfound', hdrops, htrace, hsame, hdrops', huses⟩

end Context

end Ownership
