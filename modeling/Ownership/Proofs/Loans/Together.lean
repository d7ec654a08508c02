import Ownership.Proofs.Loans.Settled
import Ownership.Proofs.Moves.Overlaps

/-!
# Two borrows in one statement

A statement can borrow several times, for the arguments of a call or for the parts of a value, and
all of its loans start at its position. Two of these borrows that exclude each other are reported,
with one exception: a request that repeats an earlier one to the letter is taken for that one, as on
a further walk of a loop, and is granted the same loan again.
-/

namespace Ownership

/-! ### Reports of conflicts -/

/-- Whether a violation is that live borrows exclude a request. -/
def Violation.isAliasConflict : Violation → Bool
  | aliasConflict .. => true
  | _ => false

lemma Violation.isAliasConflict_iff_code (v : Violation) :
    v.isAliasConflict = true ↔ v.code = "E_ALIAS_CONFLICT" := by
  cases v <;> simp [isAliasConflict, code]

namespace Session

variable {s m s' : Session} {p : Place} {kind : LoanKind} {pos : Int}

/-- Whether a conflict of borrows has been reported at a position. -/
def ConflictAt (s : Session) (pos : Int) : Prop :=
  ∃ f ∈ s.findings, f.pos = pos ∧ f.violation.isAliasConflict = true

lemma ConflictAt.mono (hs : s.ConflictAt pos) (h : s.findings <+: s'.findings) :
    s'.ConflictAt pos := by
  obtain ⟨f, hf, hconf⟩ := hs
  exact ⟨f, h.subset hf, hconf⟩

lemma conflictAt_report (s : Session) (l : Loan) (p : Place) (kind : LoanKind) (pos : Int)
    (span : Span) : (s.report (l.conflict p kind pos span)).ConflictAt pos := by
  obtain ⟨g, hg, hrepeats⟩ := s.exists_repeats_report (l.conflict p kind pos span)
  simp only [Finding.repeats, Bool.and_eq_true, decide_eq_true_eq] at hrepeats
  refine ⟨g, hg, hrepeats.1.2.symm, ?_⟩
  rw [Violation.isAliasConflict_iff_code, ← hrepeats.1.1]
  rfl

/-- Whether a session adds to another only loans that start at a position and that nothing holds
yet, and findings. -/
structure Adds (pos : Int) (s s' : Session) : Prop where
  loans : ∃ more, s'.loans = s.loans ++ more ∧ ∀ l ∈ more, l.start = pos ∧ l.holders = []
  findings : s.findings <+: s'.findings
  replay : s'.replay = s.replay

lemma Idle.adds (h : s.Idle s') : s.Adds pos s' :=
  ⟨⟨[], by rw [h.loans, List.append_nil], fun _ hl => nomatch hl⟩, h.findings, h.replay⟩

lemma Adds.trans (h : s.Adds pos m) (h' : m.Adds pos s') : s.Adds pos s' := by
  obtain ⟨xs, hxs, hx⟩ := h.loans
  obtain ⟨ys, hys, hy⟩ := h'.loans
  refine ⟨⟨xs ++ ys, by rw [hys, hxs, List.append_assoc], fun l hl => ?_⟩,
    h.findings.trans h'.findings, h'.replay.trans h.replay⟩
  exact (List.mem_append.mp hl).elim (hx l) (hy l)

lemma Adds.mem (h : s.Adds pos s') {l : Loan} (hl : l ∈ s.loans) : l ∈ s'.loans := by
  obtain ⟨more, hmore, -⟩ := h.loans
  rw [hmore]
  exact List.mem_append_left _ hl

lemma Adds.mem_or (h : s.Adds pos s') {l : Loan} (hl : l ∈ s'.loans) :
    l ∈ s.loans ∨ l.start = pos ∧ l.holders = [] := by
  obtain ⟨more, hmore, hstart⟩ := h.loans
  rw [hmore] at hl
  exact (List.mem_append.mp hl).imp_right (hstart l)

lemma Adds.begin {loc : Span} (h : (s.begin loc).Adds pos s') : s.Adds pos s' :=
  ⟨h.loans, h.findings, h.replay⟩

end Session

namespace Context

variable {c : Context} {s s' u v : Session} {a b : Access} {p q : Place} {kind kind' : LoanKind}
  {pos : Int} {span span' : Span} {rs : List Request} {k k' : List Nat × Session} {r : Request}

/-! ### Requests in turn -/

lemma adds_access (hc : c.tracksLoans = true) (h : c.access pos span s a = .ok k) :
    s.Adds pos k.2 := by
  rcases access_cases hc h with hidle | ⟨p, kind, -, -, -, hk⟩
  · exact hidle.adds
  · rw [hk]
    refine ⟨⟨_, rfl, fun l hl => ?_⟩, List.prefix_refl _, rfl⟩
    rw [List.mem_singleton.mp hl]
    exact ⟨rfl, rfl⟩

lemma exists_access_of_perform (h : c.perform pos s r = .ok k) :
    ∃ a span k', c.asked r = .ok a ∧ c.access pos span s a = .ok k' ∧ k'.2 = k.2 := by
  cases r with
  | fail f => cases h
  | place demand p span kept =>
    rw [perform_place] at h
    obtain ⟨k', hdemand, rfl⟩ := map_eq_ok.mp h
    obtain ⟨a, ha, hk'⟩ := bind_eq_ok.mp hdemand
    exact ⟨a, span, k', ha, hk', rfl⟩

lemma adds_perform (hc : c.tracksLoans = true) (h : c.perform pos s r = .ok k) :
    s.Adds pos k.2 := by
  obtain ⟨a, span, k', -, hk', heq⟩ := exists_access_of_perform h
  exact heq ▸ adds_access hc hk'

lemma adds_performAll (hc : c.tracksLoans = true) (h : c.performAll pos s rs = .ok k) :
    s.Adds pos k.2 := by
  induction rs generalizing s k with
  | nil =>
    cases h
    exact (Session.Idle.refl s).adds
  | cons r rest ih =>
    rw [performAll_cons] at h
    obtain ⟨k₁, hk₁, h⟩ := bind_eq_ok.mp h
    obtain ⟨k₂, hk₂, rfl⟩ := map_eq_ok.mp h
    exact (adds_perform hc hk₁).trans (ih (k := k₂) hk₂)

lemma adds_of_asks (hc : c.tracksLoans = true) (h : c.Asks pos rs s a u) : s.Adds pos u := by
  induction rs generalizing s with
  | nil => cases h
  | cons r rest ih =>
    rcases h with ⟨-, rfl⟩ | ⟨k, hk, h⟩
    · exact (Session.Idle.refl u).adds
    · exact (adds_perform hc hk).trans (ih h)

/-- Whether performing requests tries one access and later another, and in which sessions. -/
def AsksThen (c : Context) (pos : Int) (a : Access) (u : Session) (b : Access) (v : Session) :
    List Request → Session → Prop
  | [], _ => False
  | r :: rest, s => ∃ k, c.perform pos s r = .ok k ∧
      ((c.asked r = .ok a ∧ u = s ∧ c.Asks pos rest k.2 b v) ∨ c.AsksThen pos a u b v rest k.2)

/-- Whether executing a node tries one access and later another for the expression that it
evaluates. -/
def NodeTriesThen (c : Context) (pos : Int) (s : Session) (a : Access) (u : Session) (b : Access)
    (v : Session) : Node → Prop
  | .stmt (.declare _ _ value _ loc) | .stmt (.assign _ value loc) | .stmt (.evaluate value loc)
  | .stmt (.ret value loc) =>
    c.AsksThen pos a u b v (value.requests (c.evalScope pos loc) true) (s.begin loc)
  | .stmt (.branch test _ _ loc) | .stmt (.loop test _ loc) =>
    c.AsksThen pos a u b v (test.readRequests (c.evalScope pos loc)) (s.begin loc)
  | .stmt (.select scrutinee _ _ loc) => scrutinee.place? (c.meaning pos) = none ∧
    c.AsksThen pos a u b v (scrutinee.requests (c.evalScope pos loc) true) (s.begin loc)
  | .arm .. | .stmt (.foreign _) | .stmt (.block _) | .function | .param _ => False

/-- Whether executing an event tries one access and later another, and in which sessions. -/
def TriesThen (c : Context) (e : Event) (s : Session) (a : Access) (u : Session) (b : Access)
    (v : Session) : Prop :=
  e.kind = .step ∧ c.NodeTriesThen e.pos s a u b v e.node

/-- The first access is made, and then nothing but loans that start here comes before the second. -/
lemma AsksThen.first (hc : c.tracksLoans = true) (h : c.AsksThen pos a u b v rs s) :
    ∃ span k, c.access pos span u a = .ok k ∧ k.2.Adds pos v := by
  induction rs generalizing s with
  | nil => cases h
  | cons r rest ih =>
    obtain ⟨k, hk, ⟨ha, rfl, hasks⟩ | h⟩ := h
    · obtain ⟨a', span, k', ha', hk', heq⟩ := exists_access_of_perform hk
      obtain rfl := ok_inj ha' ha
      exact ⟨span, k', hk', heq ▸ adds_of_asks hc hasks⟩
    · exact ih h

lemma AsksThen.asks (h : c.AsksThen pos a u b v rs s) :
    c.Asks pos rs s a u ∧ c.Asks pos rs s b v := by
  induction rs generalizing s with
  | nil => cases h
  | cons r rest ih =>
    obtain ⟨k, hk, ⟨ha, hu, hasks⟩ | h⟩ := h
    · exact ⟨.inl ⟨ha, hu⟩, .inr ⟨k, hk, hasks⟩⟩
    · exact ⟨.inr ⟨k, hk, (ih h).1⟩, .inr ⟨k, hk, (ih h).2⟩⟩

lemma TriesThen.asksThen {e : Event} (h : c.TriesThen e s a u b v) :
    ∃ rs m, c.AsksThen e.pos a u b v rs m ∧ ∀ x w, c.Asks e.pos rs m x w → c.Tries e s x w := by
  obtain ⟨hk, h⟩ := h
  simp only [Tries, hk, true_and]
  generalize e.node = node at h
  unfold NodeTriesThen at h
  split at h
  · exact ⟨_, _, h, fun _ _ => id⟩
  · exact ⟨_, _, h, fun _ _ => .inl⟩
  · exact ⟨_, _, h, fun _ _ => id⟩
  · exact ⟨_, _, h, fun _ _ => id⟩
  · exact ⟨_, _, h, fun _ _ => id⟩
  · exact ⟨_, _, h, fun _ _ => id⟩
  · obtain ⟨hp, h⟩ := h
    refine ⟨_, _, h, fun x w hasks => ?_⟩
    simp only [NodeTries, hp]
    exact hasks
  all_goals cases h

/-! ### Two borrows -/

/-- Whether nothing but loans can speak against a borrow: the place can be used, and it is not the
exclusive borrow of an immutable binding. -/
structure Lendable (c : Context) (s : Session) (p : Place) (kind : LoanKind) : Prop where
  usable : s.flow.refusal? p = none
  mutable :
    kind = .exclusive → c.options.checkMutability = true → c.typing.refPrefix? p = .ok none →
    p.base.mutable = true

/-- A borrow of something usable is granted, or reported because of a loan. -/
lemma Lendable.access_cases (hc : c.tracksLoans = true) (hp : c.Lendable s p kind)
    (h : c.access pos span s (.lend p kind) = .ok k) :
    (∃ l, s.conflict? p kind pos ((s.sameLoan? p kind pos).map (·.id)) = some l ∧
      k.2 = s.report (l.conflict p kind pos span)) ∨
    (s.conflict? p kind pos ((s.sameLoan? p kind pos).map (·.id)) = none ∧
      ∃ behind, k = c.grantLoan p kind pos span behind s) := by
  have h : c.lend p kind pos span s = .ok k := h
  unfold lend at h
  rw [hc, Bool.not_true, if_neg Bool.false_ne_true, hp.usable] at h
  obtain ⟨behind, hbehind, h⟩ := bind_eq_ok.mp h
  split at h
  · rename_i hrefused
    simp only [Bool.and_eq_true, decide_eq_true_eq, Bool.not_eq_true', Option.isNone_iff_eq_none]
      at hrefused
    obtain ⟨⟨⟨hkind, hcheck⟩, rfl⟩, himmutable⟩ := hrefused
    rw [hp.mutable hkind hcheck hbehind] at himmutable
    cases himmutable
  · split at h
    · rename_i l hconf
      cases h
      exact .inl ⟨l, hconf, rfl⟩
    · rename_i hconf
      exact .inr ⟨hconf, behind, (Except.ok.inj h).symm⟩

lemma exists_answers_grantLoan (c : Context) (p : Place) (kind : LoanKind) (pos : Int) (span : Span)
    (behind : Option Place) (s : Session) :
    ∃ l ∈ (c.grantLoan p kind pos span behind s).2.loans, l.Answers p kind pos := by
  unfold grantLoan
  cases hsame : s.sameLoan? p kind pos with
  | some l => exact ⟨l, Session.sameLoan?_eq_some hsame⟩
  | none => exact ⟨_, List.mem_append_right _ List.mem_cons_self, rfl, rfl, rfl⟩

lemma sameLoan?_of_answers (hb : Loan.Booked s.loans) {l : Loan} (hl : l ∈ s.loans)
    (hans : l.Answers p .exclusive pos) : s.sameLoan? p .exclusive pos = some l := by
  cases hsame : s.sameLoan? p .exclusive pos with
  | none =>
    have := List.find?_eq_none.mp hsame l hl
    simp [hans.1, hans.2.1, hans.2.2] at this
  | some m =>
    obtain ⟨hm, hplace, hkind, hstart⟩ := Session.sameLoan?_eq_some hsame
    by_contra hne
    have hml : m ≠ l := fun h => hne (congrArg some h)
    refine hb.not_excludes hm hl hml (hstart.trans hans.2.2.symm) ⟨?_, .inr hkind⟩
    rw [hplace, hans.1]
    exact Place.overlaps_of_covers (Place.covers_refl p)

/-- Of two borrows at one position that exclude each other one is reported, if they are not the same
to the letter. -/
lemma conflictAt_of_two (hc : c.tracksLoans = true) (hb : Loan.Booked v.loans)
    (hp : c.Lendable u p kind) (hq : c.Lendable v q kind') (hov : p.overlaps q = true)
    (hex : kind = .exclusive ∨ kind' = .exclusive) (hne : ¬(p = q ∧ kind = kind'))
    (hk : c.access pos span u (.lend p kind) = .ok k) (hadds : k.2.Adds pos v)
    (hk' : c.access pos span' v (.lend q kind') = .ok k') : k'.2.ConflictAt pos := by
  have hgrows : v.findings <+: k'.2.findings := (adds_access hc hk').findings
  rcases hp.access_cases hc hk with ⟨l, -, heq⟩ | ⟨-, behind, rfl⟩
  · have hreport : k.2.ConflictAt pos := heq ▸ Session.conflictAt_report ..
    exact hreport.mono (hadds.findings.trans hgrows)
  · obtain ⟨l, hl, hplace, hkind, hstart⟩ := exists_answers_grantLoan c p kind pos span behind u
    have hlv : l ∈ v.loans := hadds.mem hl
    rcases hq.access_cases hc hk' with ⟨m, -, heq⟩ | ⟨hconf, -⟩
    · exact heq ▸ Session.conflictAt_report ..
    · -- The loan of the first borrow is live here, and the second does not renew it.
      have hactive : l.activeAt pos = true := hstart ▸ (hb.proper l hlv).activeAt_start
      have hexcludes : l.Excludes q kind' := ⟨hplace ▸ hov, hkind ▸ hex.symm⟩
      have hrenewed := Session.conflict?_eq_none_iff.mp hconf l hlv hactive hexcludes
      obtain ⟨m, hm, hid⟩ := Option.map_eq_some_iff.mp hrenewed
      obtain ⟨hmv, hmplace, hmkind, -⟩ := Session.sameLoan?_eq_some hm
      obtain rfl := hb.eq_of_id hmv hlv hid
      exact (hne ⟨hplace.symm.trans hmplace, hkind.symm.trans hmkind⟩).elim

/-- An exclusive borrow that is repeated to the letter was reported the first time, or it changes
nothing. -/
lemma eq_of_repeated (hc : c.tracksLoans = true) (hbu : Loan.Booked u.loans)
    (hb : Loan.Booked v.loans) (hp : c.Lendable u p .exclusive) (hq : c.Lendable v p .exclusive)
    (hk : c.access pos span u (.lend p .exclusive) = .ok k) (hadds : k.2.Adds pos v)
    (hk' : c.access pos span' v (.lend p .exclusive) = .ok k') : v.ConflictAt pos ∨ k'.2 = v := by
  rcases hp.access_cases hc hk with ⟨l, -, heq⟩ | ⟨hconf, behind, hgranted⟩
  · have hreport : k.2.ConflictAt pos := heq ▸ Session.conflictAt_report ..
    exact .inl (hreport.mono hadds.findings)
  · obtain ⟨l, hl, hans⟩ := exists_answers_grantLoan c p .exclusive pos span behind u
    rw [← hgranted] at hl
    have hlv : l ∈ v.loans := hadds.mem hl
    have hsame := sameLoan?_of_answers hb hlv hans
    -- What is live besides this loan started earlier and was there when the first was granted.
    have hfree :
        v.conflict? p .exclusive pos ((v.sameLoan? p .exclusive pos).map (·.id)) = none := by
      rw [hsame, Session.conflict?_eq_none_iff]
      intro m hm hactive hex
      by_contra hne
      have hml : m ≠ l := fun h => hne (congrArg (fun l : Loan => some l.id) h.symm)
      rcases ((adds_access hc hk).trans hadds).mem_or hm with hmu | ⟨hstart, -⟩
      · have hrenewed := Session.conflict?_eq_none_iff.mp hconf m hmu hactive hex
        obtain ⟨n, hn, hid⟩ := Option.map_eq_some_iff.mp hrenewed
        obtain ⟨hnu, -, -, hstart⟩ := Session.sameLoan?_eq_some hn
        obtain rfl := hbu.eq_of_id hnu hmu hid
        exact hb.not_excludes hm hlv hml (hstart.trans hans.2.2.symm) (hans.1 ▸ hans.2.1 ▸ hex)
      · exact hb.not_excludes hm hlv hml (hstart.trans hans.2.2.symm) (hans.1 ▸ hans.2.1 ▸ hex)
    rcases hq.access_cases hc hk' with ⟨m, hm, -⟩ | ⟨-, behind', rfl⟩
    · rw [hfree] at hm
      cases hm
    · rw [grantLoan, hsame]
      exact .inr rfl

/-- If a statement borrows two overlapping places, one of them exclusively, and only loans can speak
against it, a conflict is reported at the statement, provided that the two requests differ in their
place or in their kind. A request that repeats an exclusive one to the letter never adds a conflict:
the first one was reported, or the second changes nothing. -/
theorem conflict_of_two_borrows {program : Program} {f : Function} {options : Options}
    (hbuild : build program f options = .ok c) (hrun : c.run = .ok s) :
    ∃ s₀, c.initial = .ok s₀ ∧ ∀ e u, (e, u) ∈ f.skeleton.visits c s₀ →
      ∀ p kind v q kind' v', c.TriesThen e u (.lend p kind) v (.lend q kind') v' →
        p.overlaps q = true → (kind = .exclusive ∨ kind' = .exclusive) →
        c.Lendable v p kind → c.Lendable v' q kind' →
        (¬(p = q ∧ kind = kind') → s.ConflictAt e.pos) ∧
        (p = q ∧ kind = kind' → s.ConflictAt e.pos ∨
          ∀ span k, c.access e.pos span v' (.lend q kind') = .ok k → k.2 = v') := by
  have hc := (build_fields hbuild).1
  obtain ⟨s₀, s₁, h₀, h₁, -⟩ := run_cases hrun
  refine ⟨s₀, h₀, fun e u hu p kind v q kind' v' htries hov hex hp hq => ?_⟩
  obtain ⟨rs, m, hasks, htries⟩ := htries.asksThen
  obtain ⟨span, k, hk, hadds⟩ := hasks.first hc
  obtain ⟨hfirst, hsecond⟩ := hasks.asks
  obtain ⟨hbv, -⟩ := exists_access_of_tries hbuild h₀ hrun hu (htries _ _ hfirst)
  obtain ⟨hb, span', k', hk', hgrows⟩ :=
    exists_access_of_tries hbuild h₀ hrun hu (htries _ _ hsecond)
  refine ⟨fun hne => ?_, ?_⟩
  · exact (conflictAt_of_two hc hb hp hq hov hex hne hk hadds hk').mono hgrows
  · rintro ⟨rfl, rfl⟩
    obtain rfl : kind = .exclusive := or_self_iff.mp hex
    have hkept : v'.findings <+: s.findings := (adds_access hc hk').findings.trans hgrows
    by_cases hreported : v'.ConflictAt e.pos
    · exact .inl (hreported.mono hkept)
    · refine .inr fun span₂ k₂ hk₂ => ?_
      exact (eq_of_repeated hc hbv hb hp hq hk hadds hk₂).resolve_left hreported

end Context

/-! ### A text that is borrowed twice for a call -/

/-- Passes an exclusive reference to a text and another reference to it. -/
def Expr.pairing (second : LoanKind) : Expr :=
  .call "pair" [.borrow (.var "x" .unknown) true .unknown,
    .borrow (.var "x" .unknown) (second = .exclusive) .unknown] .unknown

def Function.pairing (second : LoanKind) : Function where
  name := "pairing"
  params := [⟨"x", some ⟨1⟩, true, .unknown⟩]
  body := .mk [.evaluate (.pairing second) .unknown] .unknown

def Event.pairing (second : LoanKind) : Event :=
  .step 2 (.stmt (.evaluate (.pairing second) .unknown))

namespace Context

lemma exists_second_borrow (second : LoanKind) (test : Session → Place → Session → Bool)
    (h : ((build { types := .texts } (.pairing second) {} >>= fun c => c.initial >>= fun s₀ =>
      (c, s₀, ·) <$> c.run).toOption.any fun r =>
        ((Expr.var "x" .unknown).place? (r.1.meaning 2)).any fun p =>
          decide ((Expr.pairing second).requests (r.1.evalScope 2 .unknown) true =
            [.place (.lend .exclusive) p .unknown false, .place (.lend second) p .unknown false]) &&
          ((Function.pairing second).skeleton.visits r.1 r.2.1).all fun v => decide (v.1.pos ≠ 2) ||
            decide (v.2.flow.refusal? p = none ∧ p.base.mutable = true) &&
            (r.1.perform 2 (v.2.begin .unknown)
              (.place (.lend .exclusive) p .unknown false)).toOption.any
              fun k => decide (k.2.flow.refusal? p = none) && test k.2 p r.2.2) = true) :
    ∃ c s₀ s u v p, build { types := .texts } (.pairing second) {} = .ok c ∧ c.initial = .ok s₀ ∧
      c.run = .ok s ∧ (.pairing second, u) ∈ (Function.pairing second).skeleton.visits c s₀ ∧
      c.TriesThen (.pairing second) u (.lend p .exclusive) (u.begin .unknown) (.lend p second) v ∧
      c.Lendable (u.begin .unknown) p .exclusive ∧ c.Lendable v p second ∧ test v p s = true := by
  obtain ⟨c, s₀, s, hbuild, h₀, hrun, htest⟩ := exists_initial_run_of_test h
  obtain ⟨p, -, htest⟩ := (Option.any_eq_true _ _).mp htest
  obtain ⟨hrequests, htest⟩ := Bool.and_eq_true_iff.mp htest
  obtain ⟨u, hu⟩ := exists_visit (e := Event.pairing second) hbuild h₀ hrun List.mem_cons_self
  have hpos : (Event.pairing second).pos = 2 := rfl
  have htest := List.all_eq_true.mp htest _ hu
  rw [Bool.or_eq_true, Bool.and_eq_true] at htest
  obtain ⟨hfirst, htest⟩ := htest.resolve_left (by simp [hpos])
  obtain ⟨husable, hmutable⟩ := of_decide_eq_true hfirst
  obtain ⟨k, hk, htest⟩ := Fault.exists_ok htest
  obtain ⟨husable', htest⟩ := Bool.and_eq_true_iff.mp htest
  refine ⟨c, s₀, s, u, k.2, p, hbuild, h₀, hrun, hu, ⟨rfl, ?_⟩, ⟨husable, fun _ _ _ => hmutable⟩,
    ⟨of_decide_eq_true husable', fun _ _ _ => hmutable⟩, htest⟩
  change c.AsksThen 2 _ _ _ _ ((Expr.pairing second).requests (c.evalScope 2 .unknown) true) _
  rw [of_decide_eq_true hrequests]
  exact ⟨k, hk, .inl ⟨rfl, rfl, .inl ⟨rfl, rfl⟩⟩⟩

/-- The second reference is a shared one: a conflict is reported. -/
theorem conflict_of_two_borrows_pairing : ∃ c s₀ s u v p,
    build { types := .texts } (.pairing .shared) {} = .ok c ∧ c.initial = .ok s₀ ∧ c.run = .ok s ∧
    (.pairing .shared, u) ∈ (Function.pairing .shared).skeleton.visits c s₀ ∧
    c.TriesThen (.pairing .shared) u (.lend p .exclusive) (u.begin .unknown) (.lend p .shared) v ∧
    c.Lendable (u.begin .unknown) p .exclusive ∧ c.Lendable v p .shared ∧ s.ConflictAt 2 := by
  obtain ⟨c, s₀, s, u, v, p, hbuild, h₀, hrun, hu, htries, hp, hq, -⟩ :=
    exists_second_borrow .shared (fun _ _ _ => true) (by decide +kernel)
  obtain ⟨s₀', h₀', hconflict⟩ := conflict_of_two_borrows hbuild hrun
  obtain rfl := ok_inj h₀ h₀'
  have hov : p.overlaps p = true := Place.overlaps_of_covers (Place.covers_refl p)
  refine ⟨c, s₀, s, u, v, p, hbuild, h₀, hrun, hu, htries, hp, hq, ?_⟩
  exact (hconflict _ u hu p .exclusive _ p .shared v htries hov (.inl rfl) hp hq).1 (by simp)

/-- Both references are exclusive, and nothing is found. -/
theorem two_exclusive_borrows_accepted : ∃ c s₀ s u v p,
    build { types := .texts } (.pairing .exclusive) {} = .ok c ∧ c.initial = .ok s₀ ∧
    c.run = .ok s ∧ (.pairing .exclusive, u) ∈ (Function.pairing .exclusive).skeleton.visits c s₀ ∧
    c.TriesThen (.pairing .exclusive) u (.lend p .exclusive) (u.begin .unknown)
      (.lend p .exclusive) v ∧
    c.Lendable (u.begin .unknown) p .exclusive ∧ c.Lendable v p .exclusive ∧
    p.overlaps p = true ∧ s.findings = [] ∧ ¬s.ConflictAt 2 := by
  obtain ⟨c, s₀, s, u, v, p, hbuild, h₀, hrun, hu, htries, hp, hq, htest⟩ :=
    exists_second_borrow .exclusive (fun _ _ s => decide (s.findings = [])) (by decide +kernel)
  have hnone : s.findings = [] := of_decide_eq_true htest
  refine ⟨c, s₀, s, u, v, p, hbuild, h₀, hrun, hu, htries, hp, hq,
    Place.overlaps_of_covers (Place.covers_refl p), hnone, ?_⟩
  rintro ⟨g, hg, -⟩
  rw [hnone] at hg
  cases hg

end Context

end Ownership
