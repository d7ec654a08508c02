import Ownership.Proofs.Moves.Events

/-!
# Sessions that are alike

Two ownership states are *alike* if every place is in the same state in both. What an access does
to the states of places, and whether it refuses a use or objects to a write, depends on these
states and on the function only. So an access that finds nothing in one session finds in one that
is like it nothing but conflicts with loans, and not even these if the loans are the same too.
-/

namespace Ownership

/-- Whether a violation is one of the rules about live loans. -/
def Violation.concernsLoan : Violation → Bool
  | aliasConflict .. | moveWhileBorrowed .. | writeWhileBorrowed .. | danglingBorrow .. => true
  | _ => false

lemma Violation.deniesUse_of_concernsLoan {v : Violation} (h : v.concernsLoan = true) :
    v.deniesUse = false := by
  cases v <;> first | rfl | cases h

/-! ### Ownership states that are alike -/

namespace Flow

/-- Whether every place is in the same state, and both paths have returned or none. -/
structure Alike (f g : Flow) : Prop where
  returned : g.returned = f.returned
  states : ∀ q, g.stateOf q = f.stateOf q

namespace Alike

variable {f g f' g' : Flow} {p : Place}

lemma refl (f : Flow) : f.Alike f := ⟨rfl, fun _ => rfl⟩

lemma trans {h : Flow} (hfg : f.Alike g) (hgh : g.Alike h) : f.Alike h :=
  ⟨hgh.returned.trans hfg.returned, fun q => (hgh.states q).trans (hfg.states q)⟩

variable (h : f.Alike g)

include h

lemma refusal?_eq_none : g.refusal? p = none ↔ f.refusal? p = none := by
  simp only [refusal?_eq_none_iff, Access.usable_iff, h.states]

lemma writeRefusal?_eq_none : g.writeRefusal? p = none ↔ f.writeRefusal? p = none := by
  simp only [writeRefusal?_eq_none_iff, Access.writable_iff, h.states]

lemma baseUninit : g.baseUninit p = f.baseUninit p := by
  rw [Bool.eq_iff_iff, baseUninit_iff, baseUninit_iff, h.states]

lemma mark (p : Place) (x : PlaceState) : (f.mark p x).Alike (g.mark p x) :=
  ⟨h.returned, fun q => by rw [stateOf_mark, stateOf_mark, h.states]⟩

lemma moveOut (p : Place) (x y : MoveSite) : (f.moveOut p x).Alike (g.moveOut p y) :=
  ⟨h.returned, fun q => by rw [stateOf_moveOut, stateOf_moveOut, h.states]⟩

lemma refill (p : Place) : (f.refill p).Alike (g.refill p) :=
  ⟨h.returned, fun q => by rw [stateOf_refill, stateOf_refill, h.states]⟩

lemma forget (b : Binding) : (f.forget b).Alike (g.forget b) :=
  ⟨h.returned, fun q => by rw [stateOf_forget, stateOf_forget, h.states]⟩

lemma foldl_forget (bs : List Binding) :
    (bs.foldl Flow.forget f).Alike (bs.foldl Flow.forget g) := by
  induction bs generalizing f g with
  | nil => exact h
  | cons b bs ih => exact ih (h.forget b)

/-- A merge looks at nothing but the states of places. -/
lemma merge (h' : f'.Alike g') : (f.merge f').Alike (g.merge g') := by
  cases hf : f.returned with
  | true =>
    rw [merge_of_returned_left hf, merge_of_returned_left (h.returned.trans hf)]
    exact h'
  | false =>
    have hg : g.returned = false := h.returned.trans hf
    cases hf' : f'.returned with
    | true =>
      rw [merge_of_returned_right hf hf', merge_of_returned_right hg (h'.returned.trans hf')]
      exact h
    | false =>
      have hg' : g'.returned = false := h'.returned.trans hf'
      refine ⟨by simp [hf, hg], fun q => ?_⟩
      rw [stateOf_merge hf hf', stateOf_merge hg hg', h.states, h'.states]

end Alike

end Flow

/-! ### Findings about loans -/

namespace Session

variable {s t : Session} {x : Finding}

/-- Whether everything that has been found concerns loans. -/
def OnlyLoans (s : Session) : Prop := ∀ x ∈ s.findings, x.violation.concernsLoan = true

lemma OnlyLoans.report (h : s.OnlyLoans) (hx : x.violation.concernsLoan = true) :
    (s.report x).OnlyLoans := by
  unfold Session.report
  split
  · exact h
  · intro y hy
    rcases List.mem_append.mp hy with hy | hy
    · exact h y hy
    · rwa [List.mem_singleton.mp hy]

/-- Whoever reports has found something, now or in an earlier round. -/
lemma findings_report_ne_nil (s : Session) (x : Finding) : (s.report x).findings ≠ [] := by
  unfold report
  split
  · rename_i h
    rw [Bool.and_eq_true, List.any_eq_true] at h
    obtain ⟨-, y, hy, -⟩ := h
    exact List.ne_nil_of_mem hy
  · simp

variable (s) (tree : ScopeTree) (scope : Nat) (pos : Int)

@[simp] lemma span_report : (s.report x).span = s.span := (congrArg Session.span (s.report_eq x) :)

lemma span_destroy : (s.destroy tree scope pos).span = s.span :=
  (congrArg Session.span (s.destroy_eq pos tree scope) :)

lemma dangling_destroy : (s.destroy tree scope pos).dangling = s.dangling :=
  (congrArg Session.dangling (s.destroy_eq pos tree scope) :)

variable {s}

variable (h : t.loans = s.loans)

include h

lemma conflict?_congr (p : Place) (kind : LoanKind) (renewed : Option Nat) :
    t.conflict? p kind pos renewed = s.conflict? p kind pos renewed := by
  unfold conflict? liveLoans
  rw [h]

lemma sameLoan?_congr (p : Place) (kind : LoanKind) :
    t.sameLoan? p kind pos = s.sameLoan? p kind pos := by
  unfold sameLoan?
  rw [h]

lemma carriedBy_congr (p : Place) : t.carriedBy tree p pos = s.carriedBy tree p pos := by
  unfold carriedBy
  rw [h]

end Session

/-! ### Sessions that are alike -/

/-- Whether a session goes on like another one: the ownership states are alike, and what has been
found concerns loans. If the loans are the same too, nothing has been found. -/
structure Context.Like (c : Context) (same : Prop) (s t : Session) : Prop where
  flow : s.flow.Alike t.flow
  span : t.span = s.span
  typed : c.LoansTyped t
  onlyLoans : t.OnlyLoans
  loans : same → t.loans = s.loans
  findings : same → t.findings = []
  dangling : same → s.dangling = [] ∧ t.dangling = []

namespace Context.Like

variable {c : Context} {same : Prop} {s t s' t' : Session} {p : Place} {pos : Int} {span : Span}

variable (h : c.Like same s t)

include h

/-- What else is changed does not matter. -/
lemma congr (hs : s'.flow.Alike t'.flow) (hspan : t'.span = s'.span)
    (hloans : s'.loans = s.loans ∧ t'.loans = t.loans) (hfind : t'.findings = t.findings)
    (hdang : s'.dangling = s.dangling ∧ t'.dangling = t.dangling) : c.Like same s' t' where
  flow := hs
  span := hspan
  typed := by
    rw [LoansTyped, hloans.2]
    exact h.typed
  onlyLoans := by
    rw [Session.OnlyLoans, hfind]
    exact h.onlyLoans
  loans hsame := by rw [hloans.1, hloans.2, h.loans hsame]
  findings hsame := hfind.trans (h.findings hsame)
  dangling hsame := by
    rw [hdang.1, hdang.2]
    exact h.dangling hsame

lemma withFlow {f g : Flow} (hfg : f.Alike g) : c.Like same (s.withFlow f) (t.withFlow g) :=
  h.congr hfg h.span ⟨rfl, rfl⟩ rfl ⟨rfl, rfl⟩

lemma begin (loc : Span) : c.Like same (s.begin loc) (t.begin loc) :=
  h.congr h.flow rfl ⟨rfl, rfl⟩ rfl ⟨rfl, rfl⟩

lemma mark (p : Place) (x : PlaceState) : c.Like same (s.mark p x) (t.mark p x) :=
  h.congr (h.flow.mark p x) h.span ⟨rfl, rfl⟩ rfl ⟨rfl, rfl⟩

lemma destroy (scope : Nat) (pos : Int) :
    c.Like same (s.destroy c.tree scope pos) (t.destroy c.tree scope pos) := by
  refine h.congr ?_ ?_ ⟨?_, ?_⟩ ?_ ⟨?_, ?_⟩
  · rw [Session.flow_destroy, Session.flow_destroy]
    exact h.flow
  · rw [Session.span_destroy, Session.span_destroy]
    exact h.span
  · exact Session.loans_destroy ..
  · exact Session.loans_destroy ..
  · exact Session.findings_destroy ..
  · exact Session.dangling_destroy ..
  · exact Session.dangling_destroy ..

omit h in
lemma foldl {β : Type} {g g' : Session → β → Session}
    (hg : ∀ {s t : Session} b, c.Like same s t → c.Like same (g s b) (g' t b)) (l : List β)
    (h : c.Like same s t) : c.Like same (l.foldl g s) (l.foldl g' t) := by
  induction l generalizing s t with
  | nil => exact h
  | cons b l ih => exact ih (hg b h)

lemma attach {held held' : List Nat} (hheld : same → held' = held) (b : Binding) (pos : Int) :
    c.Like same (s.attach c.tree held b pos) (t.attach c.tree held' b pos) where
  flow := h.flow
  span := h.span
  typed := h.typed.of_mild (.attach t c.tree held' b pos)
  onlyLoans := h.onlyLoans
  loans hsame := by
    unfold Session.attach
    rw [h.loans hsame, hheld hsame]
  findings := h.findings
  dangling := h.dangling

omit h in
lemma of_not_same (hdiff : ¬same) (hflow : s.flow.Alike t.flow) (hspan : t.span = s.span)
    (htyped : c.LoansTyped t) (hloans : t.OnlyLoans) : c.Like same s t where
  flow := hflow
  span := hspan
  typed := htyped
  onlyLoans := hloans
  loans hsame := absurd hsame hdiff
  findings hsame := absurd hsame hdiff
  dangling hsame := absurd hsame hdiff

lemma still (hdiff : ¬same) (hst : t.Still t') (hspan : t'.span = t.span) (hloans : t'.OnlyLoans) :
    c.Like same s t' :=
  of_not_same hdiff (hst.flow ▸ h.flow) (hspan.trans h.span) (h.typed.of_mild hst.mild) hloans

lemma report (hdiff : ¬same) {x : Finding} (hx : x.violation.concernsLoan = true) :
    c.Like same s (t.report x) :=
  h.still hdiff (.report (Violation.deniesUse_of_concernsLoan hx)) (t.span_report)
    (h.onlyLoans.report hx)

end Context.Like

/-! ### Steps that are repeated -/

namespace Fault

/-- Whether a computation is repeated by another one if its result is quiet: that has a result, too,
and the two are related. -/
def Echoes {α : Type} (quiet : α → Prop) (R : α → α → Prop) (x y : Except Fault α) : Prop :=
  ∀ ⦃a⦄, x = .ok a → quiet a → ∃ b, y = .ok b ∧ R a b

namespace Echoes

variable {α β γ : Type} {quiet : α → Prop} {R : α → α → Prop} {x y : Except Fault α}
  {quiet' : β → Prop} {S : β → β → Prop}

lemma ok {a b : α} (h : quiet a → R a b) : Echoes quiet R (.ok a) (.ok b) := by
  intro a' ha hq
  cases ha
  exact ⟨b, rfl, h hq⟩

lemma bind {f g : α → Except Fault β} (h : Echoes quiet R x y)
    (hquiet : ∀ {a b}, f a = .ok b → quiet' b → quiet a)
    (hfg : ∀ {a b}, R a b → Echoes quiet' S (f a) (g b)) : Echoes quiet' S (x >>= f) (y >>= g) := by
  intro b hb hq
  obtain ⟨a, ha, hb⟩ := bind_eq_ok.mp hb
  obtain ⟨a', ha', hR⟩ := h ha (hquiet hb hq)
  obtain ⟨b', hb', hS⟩ := hfg hR hb hq
  exact ⟨b', bind_eq_ok.mpr ⟨a', ha', hb'⟩, hS⟩

lemma map {f g : α → β} (h : Echoes quiet R x y) (hquiet : ∀ {a}, quiet' (f a) → quiet a)
    (hfg : ∀ {a b}, R a b → S (f a) (g b)) : Echoes quiet' S (f <$> x) (g <$> y) := by
  intro b hb hq
  obtain ⟨a, ha, rfl⟩ := map_eq_ok.mp hb
  obtain ⟨a', ha', hR⟩ := h ha (hquiet hq)
  exact ⟨g a', map_eq_ok.mpr ⟨a', ha', rfl⟩, hfg hR⟩

/-- What comes first does not depend on the session. -/
lemma after {z : Except Fault γ} {f g : γ → Except Fault α}
    (h : ∀ {c}, z = .ok c → Echoes quiet R (f c) (g c)) : Echoes quiet R (z >>= f) (z >>= g) := by
  intro a ha hq
  obtain ⟨c, hc, ha⟩ := bind_eq_ok.mp ha
  obtain ⟨b, hb, hR⟩ := h hc ha hq
  exact ⟨b, bind_eq_ok.mpr ⟨c, hc, hb⟩, hR⟩

end Echoes

end Fault

namespace Context

variable {c : Context} {same : Prop} {s t s' : Session} {p : Place} {pos : Int} {span : Span}

/-- Whether a step that finds nothing is repeated where the session is alike. -/
abbrev Echoes (c : Context) (same : Prop) (x y : Except Fault Session) : Prop :=
  Fault.Echoes (·.findings = []) (c.Like same) x y

/-- Whether an evaluation that finds nothing is repeated where the session is alike. If the loans
are the same, so are those that the value carries. -/
abbrev EchoesHeld (c : Context) (same : Prop) (x y : Except Fault (List Nat × Session)) : Prop :=
  Fault.Echoes (·.2.findings = []) (fun k k' => c.Like same k.2 k'.2 ∧ (same → k'.1 = k.1)) x y

/-! ### Accesses -/

/-- Reports the first live loan that excludes a request. The rules about reads, moves and writes
differ in the request and in the report. -/
def noteConflict (enabled : Bool) (p : Place) (kind : LoanKind) (pos : Int)
    (finding : Loan → Finding) (s : Session) : Session :=
  if enabled then
    match s.conflict? p kind pos none with
    | some l => s.report (finding l)
    | none => s
  else s

variable (h : c.Like same s t)

include h

/-- A conflict that is met in one of the two only is met because of the loans. -/
lemma Like.noteConflict {enabled : Bool} {kind : LoanKind} {finding : Loan → Finding}
    (hf : ∀ l, (finding l).violation.concernsLoan = true)
    (hq : (noteConflict enabled p kind pos finding s).findings = []) :
    noteConflict enabled p kind pos finding s = s ∧
      c.Like same s (noteConflict enabled p kind pos finding t) := by
  unfold Context.noteConflict at hq ⊢
  cases enabled with
  | false => exact ⟨rfl, h⟩
  | true =>
    rw [if_pos rfl] at hq ⊢
    cases hs : s.conflict? p kind pos none with
    | some l =>
      rw [hs] at hq
      exact absurd hq (Session.findings_report_ne_nil _ _)
    | none =>
      refine ⟨rfl, ?_⟩
      rw [if_pos rfl]
      cases ht : t.conflict? p kind pos none with
      | none => exact h
      | some l =>
        refine h.report (fun hsame => ?_) (hf l)
        rw [Session.conflict?_congr pos (h.loans hsame), hs] at ht
        cases ht

lemma Like.noteRead (hq : (c.noteRead p pos span s).findings = []) :
    c.noteRead p pos span s = s ∧ c.Like same s (c.noteRead p pos span t) :=
  h.noteConflict (fun _ => rfl) hq

lemma Like.noteMove (hq : (c.noteMove p pos span s).findings = []) :
    c.noteMove p pos span s = s ∧ c.Like same s (c.noteMove p pos span t) :=
  h.noteConflict (fun _ => rfl) hq

lemma Like.noteWrite (hq : (c.noteWrite p pos span s).findings = []) :
    c.noteWrite p pos span s = s ∧ c.Like same s (c.noteWrite p pos span t) :=
  h.noteConflict (fun _ => rfl) hq

/-- Whether a binding may be assigned depends on the ownership states only. -/
lemma Like.noteMutability (hq : (c.noteMutability p pos span s).findings = []) :
    c.noteMutability p pos span s = s ∧ c.noteMutability p pos span t = t := by
  unfold Context.noteMutability at hq ⊢
  rw [h.flow.baseUninit]
  split
  · rename_i hcond
    rw [if_pos hcond] at hq
    exact absurd hq (Session.findings_report_ne_nil _ _)
  · exact ⟨rfl, rfl⟩

lemma Like.read (hq : (c.read p pos span s).findings = []) :
    c.Like same (c.read p pos span s) (c.read p pos span t) := by
  unfold Context.read at hq ⊢
  cases hs : s.flow.refusal? p with
  | some r =>
    rw [hs] at hq
    exact absurd hq (Session.findings_report_ne_nil _ _)
  | none =>
    rw [hs] at hq
    rw [h.flow.refusal?_eq_none.mpr hs]
    obtain ⟨hs', hlike⟩ := h.noteRead hq
    dsimp only
    rw [hs']
    exact hlike

lemma Like.move (hq : (c.move p pos span s).findings = []) :
    c.Like same (c.move p pos span s) (c.move p pos span t) := by
  unfold Context.move at hq ⊢
  cases hs : s.flow.refusal? p with
  | some r =>
    rw [hs] at hq
    exact absurd hq (Session.findings_report_ne_nil _ _)
  | none =>
    rw [hs] at hq
    rw [h.flow.refusal?_eq_none.mpr hs]
    obtain ⟨hs', hlike⟩ := h.noteMove hq
    dsimp only
    rw [hs']
    exact hlike.withFlow (hlike.flow.moveOut p _ _)

/-- A write that nothing objects to fills the same places in both. -/
lemma Like.write (hq : (c.write p pos span s).findings = []) :
    c.Like same (c.write p pos span s) (c.write p pos span t) := by
  unfold Context.write at hq ⊢
  cases hs : s.flow.writeRefusal? p with
  | some r =>
    rw [hs] at hq
    exact absurd hq (Session.findings_report_ne_nil _ _)
  | none =>
    rw [hs] at hq
    rw [h.flow.writeRefusal?_eq_none.mpr hs]
    have hgrows : (c.noteMutability p pos span s).findings <+:
        (c.noteWrite p pos span (c.noteMutability p pos span s)).findings :=
          notes_noteWrite.still.findings
    obtain ⟨hms, hmt⟩ := h.noteMutability (List.prefix_nil.mp (hq ▸ hgrows))
    dsimp only at hq ⊢
    rw [hms] at hq ⊢
    rw [hmt]
    obtain ⟨hs', hlike⟩ := h.noteWrite hq
    rw [hs']
    exact hlike.withFlow (hlike.flow.refill p)

omit h in
lemma grantLoan_keeps (c : Context) (p : Place) (kind : LoanKind) (pos : Int) (span : Span)
    (behind : Option Place) (s : Session) : (c.grantLoan p kind pos span behind s).2.flow = s.flow ∧
      (c.grantLoan p kind pos span behind s).2.span = s.span ∧
      (c.grantLoan p kind pos span behind s).2.findings = s.findings ∧
      (c.grantLoan p kind pos span behind s).2.dangling = s.dangling := by
  rcases snd_grantLoan c p kind pos span behind s with he | he
  · rw [he]
    exact ⟨rfl, rfl, rfl, rfl⟩
  · rw [he]
    exact ⟨rfl, rfl, rfl, rfl⟩

omit h in
/-- Which loan is granted depends on the loans that there are. -/
lemma grantLoan_congr (h : t.loans = s.loans) (p : Place) (kind : LoanKind) (pos : Int)
    (span : Span) (behind : Option Place) :
    (c.grantLoan p kind pos span behind t).1 = (c.grantLoan p kind pos span behind s).1 ∧
      (c.grantLoan p kind pos span behind t).2.loans =
        (c.grantLoan p kind pos span behind s).2.loans := by
  unfold grantLoan
  rw [Session.sameLoan?_congr pos h]
  cases s.sameLoan? p kind pos with
  | some l =>
    refine ⟨?_, h⟩
    cases behind with
    | none => rfl
    | some r => exact congrArg (l.id :: ·) (Session.carriedBy_congr c.tree pos h r)
  | none =>
    have hgrant : (t.grant p kind pos span).loans = (s.grant p kind pos span).loans := by
      simp only [Session.grant, h]
    refine ⟨?_, hgrant⟩
    dsimp only
    rw [h]
    cases behind with
    | none => rfl
    | some r => exact congrArg (s.loans.length :: ·) (Session.carriedBy_congr c.tree pos hgrant r)

lemma Like.grantLoan {behind : Option Place} (hp : c.typing.refPrefix? p = .ok behind)
    (kind : LoanKind) (pos : Int) (span : Span) :
    c.Like same (c.grantLoan p kind pos span behind s).2
      (c.grantLoan p kind pos span behind t).2 := by
  obtain ⟨hflow, hspan, -, hdang⟩ := grantLoan_keeps c p kind pos span behind s
  obtain ⟨hflow', hspan', hfind, hdang'⟩ := grantLoan_keeps c p kind pos span behind t
  constructor
  · rw [hflow, hflow']
    exact h.flow
  · rw [hspan, hspan', h.span]
  · exact (grants_grantLoan hp).loansTyped h.typed
  · rw [Session.OnlyLoans, hfind]
    exact h.onlyLoans
  · exact fun hsame => (grantLoan_congr (h.loans hsame) p kind pos span behind).2
  · rw [hfind]
    exact h.findings
  · rw [hdang, hdang']
    exact h.dangling

omit h

/-- A loan that is granted is granted in both, or else a live loan stands in its way. -/
lemma Like.lend (hc : c.tracksLoans = true) (h : c.Like same s t) {kind : LoanKind} :
    c.EchoesHeld same (c.lend p kind pos span s) (c.lend p kind pos span t) := by
  rintro ⟨held, s'⟩ hr hq
  have hreport : ∀ {x : Finding}, (.ok ([], s.report x) : Except Fault _) ≠ .ok (held, s') := by
    intro x hx
    rw [← (Prod.mk.inj (Except.ok.inj hx)).2] at hq
    exact Session.findings_report_ne_nil _ _ hq
  unfold Context.lend at hr ⊢
  rw [hc, Bool.not_true, if_neg Bool.false_ne_true] at hr ⊢
  cases hs : s.flow.refusal? p with
  | some r =>
    rw [hs] at hr
    exact absurd hr hreport
  | none =>
    rw [hs] at hr
    rw [h.flow.refusal?_eq_none.mpr hs]
    obtain ⟨behind, hp, hr⟩ := bind_eq_ok.mp hr
    simp only [hp, bind, Except.bind]
    split at hr
    · exact absurd hr hreport
    · rename_i hmut
      rw [if_neg hmut]
      split at hr
      · exact absurd hr hreport
      · rename_i hconf
        have hgrant := h.grantLoan hp kind pos span
        have hheld :=
          fun hsame => (grantLoan_congr (c := c) (h.loans hsame) p kind pos span behind).1
        have hr := Except.ok.inj hr
        rw [hr] at hgrant hheld
        cases ht : t.conflict? p kind pos ((t.sameLoan? p kind pos).map (·.id)) with
        | none => exact ⟨_, rfl, hgrant, hheld⟩
        | some l =>
          have hdiff : ¬same := by
            intro hsame
            have hloans := h.loans hsame
            rw [Session.sameLoan?_congr pos hloans, Session.conflict?_congr pos hloans, hconf] at ht
            cases ht
          have hlike := h.report hdiff (x := l.conflict p kind pos span) rfl
          obtain ⟨hflow, hspan, -, -⟩ := grantLoan_keeps c p kind pos span behind s
          rw [hr] at hflow hspan
          refine ⟨_, rfl, .of_not_same hdiff ?_ ?_ hlike.typed hlike.onlyLoans,
            fun hsame => absurd hsame hdiff⟩
          · exact hflow ▸ hlike.flow
          · exact hlike.span.trans hspan.symm

lemma Like.access (hc : c.tracksLoans = true) (h : c.Like same s t) (a : Access) :
    c.EchoesHeld same (c.access pos span s a) (c.access pos span t a) := by
  cases a with
  | read p => exact .ok fun hq => ⟨h.read hq, fun _ => rfl⟩
  | move p => exact .ok fun hq => ⟨h.move hq, fun _ => rfl⟩
  | write p => exact .ok fun hq => ⟨h.write hq, fun _ => rfl⟩
  | lend p kind => exact h.lend hc

end Context

end Ownership
