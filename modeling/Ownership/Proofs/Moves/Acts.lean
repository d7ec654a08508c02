import Ownership.Proofs.Moves.Course

/-!
# What executing an event can do

Whether loans are tracked or not, a rule for a statement or for the header of an arm does only a
few things to the ownership state: it declares bindings, moves and fills places that it tries to
move and to fill, and in the end it may leave the function. All else is done aside: it neither
changes the ownership state nor cites a move. A finding that cites a move is reported only for a
place that is moved at that time.
-/

namespace Ownership

/-- The text of the place and the position of the move that a violation cites. -/
def Violation.citedMove? : Violation → Option (String × Int)
  | useAfterMove _ _ movedPlace movedAt _ | borrowOfMoved _ _ movedPlace movedAt =>
    some (movedPlace, movedAt)
  | _ => none

lemma Violation.citedMove?_of_deniesUse {v : Violation} (h : v.deniesUse = false) :
    v.citedMove? = none := by
  cases v <;> first | rfl | cases h

/-! ### Changes aside -/

namespace Session

/-- Whether a change concerns loans and reports only, and the reports cite no move. -/
structure Aside (s s' : Session) : Prop where
  flow : s'.flow = s.flow
  scopes : s'.scopes = s.scopes
  replay : s'.replay = s.replay
  span : s'.span = s.span
  drops : s'.drops = s.drops
  trace : s'.trace = s.trace
  findings : ∃ more, s'.findings = s.findings ++ more ∧ ∀ f ∈ more, f.violation.citedMove? = none

namespace Aside

variable {s m s' : Session}

lemma refl (s : Session) : s.Aside s :=
  ⟨rfl, rfl, rfl, rfl, rfl, rfl, [], (List.append_nil _).symm, fun _ hf => nomatch hf⟩

lemma trans (h : s.Aside m) (h' : m.Aside s') : s.Aside s' where
  flow := h'.flow.trans h.flow
  scopes := h'.scopes.trans h.scopes
  replay := h'.replay.trans h.replay
  span := h'.span.trans h.span
  drops := h'.drops.trans h.drops
  trace := h'.trace.trans h.trace
  findings := by
    obtain ⟨more, hmore, hcite⟩ := h.findings
    obtain ⟨more', hmore', hcite'⟩ := h'.findings
    refine ⟨more ++ more', by rw [hmore', hmore, List.append_assoc], fun f hf => ?_⟩
    exact (List.mem_append.mp hf).elim (hcite f) (hcite' f)

lemma report (s : Session) {f : Finding} (h : f.violation.citedMove? = none) :
    s.Aside (s.report f) := by
  unfold Session.report
  split
  · exact refl s
  · exact ⟨rfl, rfl, rfl, rfl, rfl, rfl, [f], rfl, fun g hg => List.mem_singleton.mp hg ▸ h⟩

lemma attach (s : Session) (tree : ScopeTree) (held : List Nat) (b : Binding) (since : Int) :
    s.Aside (s.attach tree held b since) :=
  ⟨rfl, rfl, rfl, rfl, rfl, rfl, [], (List.append_nil _).symm, fun _ hf => nomatch hf⟩

lemma attachAll (s : Session) (tree : ScopeTree) (held : List Nat) (bs : List Binding)
    (since : Int) :
    s.Aside (bs.foldl (fun s b => s.attach tree held b since) s) := by
  induction bs generalizing s with
  | nil => exact refl s
  | cons b bs ih => exact (attach s tree held b since).trans (ih _)

end Aside

lemma Notes.aside {s s' : Session} {pos : Int} (h : s.Notes pos s') : s.Aside s' := by
  cases h with
  | silent => exact .refl s
  | report _ hf => exact .report s (Violation.citedMove?_of_deniesUse hf)

end Session

namespace Context

variable {c : Context} {s s' : Session} {p : Place} {pos : Int} {span : Span} {viaReturn : Bool}
  {kind : LoanKind}

lemma aside_reportDangling {l : Loan} : s.Aside (c.reportDangling l pos span viaReturn s) := by
  unfold reportDangling
  refine .trans ?_ (.report _ rfl)
  exact ⟨rfl, rfl, rfl, rfl, rfl, rfl, [], (List.append_nil _).symm, fun _ hf => nomatch hf⟩

lemma Dangled.aside (h : c.Dangled pos viaReturn s s') : s.Aside s' := by
  induction h with
  | refl s => exact .refl s
  | report _ _ _ ih => exact aside_reportDangling.trans ih

lemma aside_grantLoan {behind : Option Place} :
    s.Aside (c.grantLoan p kind pos span behind s).2 := by
  rcases snd_grantLoan c p kind pos span behind s with h | h
  · rw [h]
    exact .refl s
  · rw [h]
    exact ⟨rfl, rfl, rfl, rfl, rfl, rfl, [], (List.append_nil _).symm, fun _ hf => nomatch hf⟩

/-- A borrow changes no ownership state, and cites a move only if it is refused. -/
lemma lend_aside {k : List Nat × Session} (h : c.lend p kind pos span s = .ok k) :
    s.Aside k.2 ∨ ∃ q, s.flow.refusal? p = some (.moved q) ∧
      k.2 = s.report (s.flow.borrowFinding p pos span (.moved q)) := by
  cases hc : c.tracksLoans with
  | false =>
    rw [lend, hc, Bool.not_false, if_pos rfl] at h
    rw [← Except.ok.inj h]
    exact .inl (.refl s)
  | true =>
    rcases lend_cases hc h with ⟨r, hr, rfl⟩ | ⟨behind, -, -, ⟨f, hf, rfl⟩ | ⟨-, rfl⟩⟩
    · cases r with
      | uninitialized => exact .inl (.report s rfl)
      | moved q => exact .inr ⟨q, hr, rfl⟩
    · refine .inl (.report s ?_)
      cases hv : f.violation with
      | useAfterMove => rw [hv] at hf; cases hf
      | borrowOfMoved => rw [hv] at hf; cases hf
      | _ => rfl
    · exact .inl aside_grantLoan

end Context

/-! ### Refusals -/

namespace Flow

variable {f : Flow} {p q : Place}

lemma isMoved_of_movedConflict (h : f.movedConflict? p = some q) : f.isMoved q = true := by
  unfold movedConflict? at h
  rcases Option.or_eq_some_iff.mp h with h | ⟨-, h⟩
  · exact List.find?_some h
  · obtain ⟨⟨q', st⟩, he, rfl⟩ := Option.map_eq_some_iff.mp h
    have hst := List.find?_some he
    simp only [Bool.and_eq_true, decide_eq_true_eq] at hst
    have hget : f.states.get? q' = some .moved :=
      Registry.get?_eq_some_iff.mpr (hst.1.1 ▸ List.mem_of_find?_eq_some he)
    exact decide_eq_true hget

lemma isMoved_of_refusal (h : f.refusal? p = some (.moved q)) : f.isMoved q = true := by
  unfold refusal? at h
  split at h
  · cases h
  · obtain ⟨q', hq, heq⟩ := Option.map_eq_some_iff.mp h
    cases heq
    exact isMoved_of_movedConflict hq

lemma isMoved_of_writeRefusal (h : f.writeRefusal? p = some (.moved q)) : f.isMoved q = true := by
  unfold writeRefusal? at h
  split at h
  · cases h
  · split at h
    · cases h
    · obtain ⟨q', hq, heq⟩ := Option.map_eq_some_iff.mp h
      cases heq
      exact List.find?_some hq

end Flow

namespace Context

/-- What the execution of an event that began in a session can do, step by step. -/
inductive Acts (c : Context) (e : Event) (start : Session) : Session → Session → Prop
  | aside {s s' : Session} (h : s.Aside s') : Acts c e start s s'
  | begin (s : Session) (loc : Span) : Acts c e start s (s.begin loc)
  /-- A finding cites the recorded site of a place that is moved. -/
  | refuse {s : Session} {q : Place} {f : Finding} (hq : s.flow.isMoved q = true)
      (hf : f.violation.citedMove? = some (q.describe, (s.flow.siteOf q).pos)) :
      Acts c e start s (s.report f)
  | mark (s : Session) {b : Binding} {st : PlaceState} (hb : b ∈ c.tree.declaredBy e.pos)
      (hst : st ≠ .moved) : Acts c e start s (s.mark (.ofBinding b) st)
  | move {s m : Session} {p : Place} (span : Span) (ht : c.Tries e start (.move p) s)
      (hp : s.flow.refusal? p = none) (hm : s.Aside m) :
      Acts c e start s (m.withFlow (m.flow.moveOut p ⟨e.pos, span⟩))
  | write {s m : Session} {p : Place} (ht : c.Tries e start (.write p) s) (hm : s.Aside m) :
      Acts c e start s (m.withFlow (m.flow.refill p))
  | leave (s : Session) (he : e.isReturn = true) : Acts c e start s (c.leaveFunction e.pos s)
  | trans {s m s' : Session} (h : Acts c e start s m) (h' : Acts c e start m s') :
    Acts c e start s s'

variable {c : Context} {e : Event} {start s s' : Session} {p : Place} {span : Span}
  {k : List Nat × Session}

lemma Acts.refl (s : Session) : c.Acts e start s s := .aside (.refl s)

/-! ### Accesses -/

/-- A use that is refused is reported. -/
lemma acts_useFinding {r : Refusal} (h : ∀ q, r = .moved q → s.flow.isMoved q = true) :
    c.Acts e start s (s.report (s.flow.useFinding p e.pos span r)) := by
  cases r with
  | uninitialized => exact .aside (.report s rfl)
  | moved q => exact .refuse (h q rfl) rfl

lemma acts_read : c.Acts e start s (c.read p e.pos span s) := by
  unfold read
  split
  · rename_i r hr
    exact acts_useFinding fun q hq => Flow.isMoved_of_refusal (hq ▸ hr)
  · exact .aside notes_noteRead.aside

lemma acts_move (ht : c.Tries e start (.move p) s) : c.Acts e start s (c.move p e.pos span s) := by
  unfold move
  split
  · rename_i r hr
    exact acts_useFinding fun q hq => Flow.isMoved_of_refusal (hq ▸ hr)
  · rename_i hr
    exact .move span ht hr notes_noteMove.aside

lemma acts_write (ht : c.Tries e start (.write p) s) :
    c.Acts e start s (c.write p e.pos span s) := by
  unfold write
  split
  · rename_i r hr
    exact acts_useFinding fun q hq => Flow.isMoved_of_writeRefusal (hq ▸ hr)
  · exact .write ht (notes_noteMutability.aside.trans notes_noteWrite.aside)

lemma acts_lend {kind : LoanKind} (h : c.lend p kind e.pos span s = .ok k) :
    c.Acts e start s k.2 := by
  rcases lend_aside h with ha | ⟨q, hq, hk⟩
  · exact .aside ha
  · rw [hk]
    exact .refuse (Flow.isMoved_of_refusal hq) rfl

lemma acts_access {a : Access} (ht : c.Tries e start a s) (h : c.access e.pos span s a = .ok k) :
    c.Acts e start s k.2 := by
  cases a with
  | read p =>
    cases h
    exact acts_read
  | move p =>
    cases h
    exact acts_move ht
  | write p =>
    cases h
    exact acts_write ht
  | lend p kind => exact acts_lend h

/-! ### Events -/

lemma Course.acts {named : Binding → Prop} {as : List (Access × Session)} {held held' : List Nat}
    (h : c.Course e.pos named as held s held' s') (ht : ∀ a u, (a, u) ∈ as → c.Tries e start a u) :
    c.Acts e start s s' := by
  induction h with
  | refl held s | carry held s hp => exact .refl s
  | begin held s loc => exact .begin s loc
  | mark held s hb hst => exact .mark s hb hst
  | access held h ha => exact acts_access (ht _ _ (List.mem_singleton_self _)) h
  | attach s hids hb => exact .aside (.attach s _ _ _ _)
  | dangle held s l span => exact .aside aside_reportDangling
  | append _ _ ih ih' =>
    exact (ih fun a u ha => ht a u (List.mem_append_left _ ha)).trans
      (ih' fun a u ha => ht a u (List.mem_append_right _ ha))

/-- The execution of a statement or of the header of an arm is made of such steps. At its end a
return leaves the function. -/
lemma exists_acts_execute (hk : e.kind = .step) (h : c.execute e s = .ok s') :
    ∃ m, c.Acts e s s m ∧ s' = if e.isReturn then c.leaveFunction e.pos m else m := by
  obtain ⟨as, held, m, hcourse, hmem, hs'⟩ := runs_execute hk h
  exact ⟨m, hcourse.acts fun a u ha => ⟨hk, (hmem a u).mpr ha⟩, hs'⟩

theorem acts_execute (hk : e.kind = .step) (h : c.execute e s = .ok s') : c.Acts e s s s' := by
  obtain ⟨m, hm, rfl⟩ := exists_acts_execute hk h
  split
  · rename_i he
    exact hm.trans (.leave m he)
  · exact hm

lemma execute_return (he : e.isReturn = true) (h : c.execute e s = .ok s') :
    ∃ m, c.Acts e s s m ∧ s' = c.leaveFunction e.pos m := by
  have hk : e.kind = .step := by
    unfold Event.isReturn at he
    split at he
    · assumption
    · cases he
  obtain ⟨m, hm, hs'⟩ := exists_acts_execute hk h
  exact ⟨m, hm, by rwa [if_pos he] at hs'⟩

lemma execute_enter (hk : e.kind = .enter) (h : c.execute e s = .ok s') :
    ∃ scope, c.tree.scopeOf e.label e.node.kindName = .ok scope ∧ s' = s.push scope := by
  rw [execute, hk] at h
  obtain ⟨scope, hscope, rfl⟩ := map_eq_ok.mp h
  exact ⟨scope, hscope, rfl⟩

lemma execute_exit (hk : e.kind = .exit) (h : c.execute e s = .ok s') :
    ∃ scope m, c.tree.scopeOf e.label e.node.kindName = .ok scope ∧ c.finishScope scope s = .ok m ∧
      s' = m.close c.tree scope.id := by
  rw [execute, hk] at h
  obtain ⟨scope, hscope, h⟩ := bind_eq_ok.mp h
  rw [exitScope_eq] at h
  obtain ⟨m, hm, h⟩ := bind_eq_ok.mp h
  exact ⟨scope, m, hscope, hm, (Except.ok.inj h).symm⟩

/-! ### Returns -/

lemma Acts.returned (h : c.Acts e start s s') (he : e.isReturn = false) :
    s'.flow.returned = s.flow.returned := by
  induction h with
  | aside h => rw [h.flow]
  | begin s loc => rfl
  | refuse hq hf => rw [Session.flow_report]
  | mark s hb hst => rfl
  | move span ht hp hm =>
    rw [← hm.flow]
    rfl
  | write ht hm =>
    rw [← hm.flow]
    rfl
  | leave s he' => rw [he] at he'; cases he'
  | trans _ _ ih ih' => exact ih'.trans ih

lemma returned_close (tree : ScopeTree) (scope : Nat) (s : Session) :
    (s.close tree scope).flow.returned = s.flow.returned :=
  foldl_keeps Flow.returned Flow.returned_forget _ s.flow

lemma flow_finishScope {scope : Scope} (h : c.finishScope scope s = .ok s') : s'.flow = s.flow := by
  unfold finishScope at h
  split at h
  · rw [← Except.ok.inj h]
  · rw [(dangled_checkDangling h).aside.flow, Session.flow_destroy]

lemma returned_execute (he : e.isReturn = false) (h : c.execute e s = .ok s')
    (hs : s.flow.returned = false) : s'.flow.returned = false := by
  cases hk : e.kind with
  | step => rw [(acts_execute hk h).returned he, hs]
  | enter =>
    obtain ⟨scope, -, rfl⟩ := execute_enter hk h
    exact hs
  | exit =>
    obtain ⟨scope, m, -, hm, rfl⟩ := execute_exit hk h
    rw [returned_close, flow_finishScope hm, hs]

end Context

/-! ### Scopes, snapshots and rounds -/

namespace Session

def frame (s : Session) : List Scope × List Snapshot := (s.scopes, s.trace)

lemma frame_report (s : Session) (f : Finding) : (s.report f).frame = s.frame :=
  (congrArg frame (s.report_eq f) :)

lemma frame_destroy (s : Session) (tree : ScopeTree) (scope : Nat) (pos : Int) :
    (s.destroy tree scope pos).frame = s.frame :=
  (congrArg frame (s.destroy_eq pos tree scope) :)

lemma Aside.frame {s s' : Session} (h : s.Aside s') : s'.frame = s.frame :=
  Prod.ext h.scopes h.trace

end Session

namespace Context

variable {c : Context} {e : Event} {start s s' : Session}

lemma frame_finishScope {scope : Scope} (h : c.finishScope scope s = .ok s') :
    s'.frame = s.frame ∧ s'.replay = s.replay := by
  unfold finishScope at h
  split at h
  · exact Except.ok.inj h ▸ ⟨rfl, rfl⟩
  · have haside := (dangled_checkDangling h).aside
    exact ⟨haside.frame.trans (Session.frame_destroy ..),
      haside.replay.trans (Session.replay_destroy ..)⟩

lemma Acts.frame (h : c.Acts e start s s') : s'.frame = s.frame ∧ s'.replay = s.replay := by
  induction h with
  | aside h => exact ⟨h.frame, h.replay⟩
  | begin s loc => exact ⟨rfl, rfl⟩
  | refuse hq hf => exact ⟨Session.frame_report _ _, Session.replay_report _ _⟩
  | mark s hb hst => exact ⟨rfl, rfl⟩
  | move span ht hp hm => exact ⟨hm.frame, hm.replay⟩
  | write ht hm => exact ⟨hm.frame, hm.replay⟩
  | leave s he =>
    exact ⟨foldl_keeps Session.frame (fun s (S : Scope) => s.frame_destroy c.tree S.id e.pos)
      s.scopes s,
      foldl_keeps Session.replay (fun s (S : Scope) => s.replay_destroy e.pos c.tree S.id)
        s.scopes s⟩
  | trans _ _ ih ih' => exact ⟨ih'.1.trans ih.1, ih'.2.trans ih.2⟩

lemma trace_and_replay_execute (h : c.execute e s = .ok s') :
    s'.trace = s.trace ∧ s'.replay = s.replay := by
  cases hk : e.kind with
  | step => exact (acts_execute hk h).frame.imp_left (congrArg Prod.snd)
  | enter =>
    obtain ⟨scope, -, rfl⟩ := execute_enter hk h
    exact ⟨rfl, rfl⟩
  | exit =>
    obtain ⟨scope, m, -, hm, rfl⟩ := execute_exit hk h
    exact (frame_finishScope hm).imp_left (congrArg Prod.snd)

lemma trace_execute (h : c.execute e s = .ok s') : s'.trace = s.trace :=
  (trace_and_replay_execute h).1

lemma replay_execute (h : c.execute e s = .ok s') : s'.replay = s.replay :=
  (trace_and_replay_execute h).2

end Context

end Ownership
