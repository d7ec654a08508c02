import Ownership.Proofs.Loans.Change
import Ownership.Proofs.Moves.Course
import Ownership.Proofs.Moves.Events

/-!
# What events do to loans

Executing an event is a list of accesses with other steps between them: steps that touch no loan,
and bindings that come to hold live loans. All of it happens at the position of the event.
-/

namespace Ownership

open List

namespace Session

variable {s s' : Session} {p : Place} {kind : LoanKind} {pos : Int}

/-- Whether a change touches no loan and takes back no finding. -/
structure Idle (s s' : Session) : Prop where
  loans : s'.loans = s.loans
  findings : s.findings <+: s'.findings
  replay : s'.replay = s.replay

lemma Still.idle (h : s.Still s') : s.Idle s' := ⟨h.loans, h.findings, h.replay⟩

lemma Idle.refl (s : Session) : s.Idle s := ⟨rfl, prefix_refl _, rfl⟩

lemma Idle.report (s : Session) (f : Finding) : s.Idle (s.report f) :=
  ⟨loans_report s f, findings_report s f, replay_report s f⟩

lemma Idle.withFlow (h : s.Idle s') (f : Flow) : s.Idle (s'.withFlow f) :=
  ⟨h.loans, h.findings, h.replay⟩

lemma Idle.foldl {β : Type} {g : Session → β → Session} (h : ∀ (s : Session) b, s.Idle (g s b))
    (l : List β) (s : Session) : s.Idle (l.foldl g s) := by
  induction l generalizing s with
  | nil => exact .refl s
  | cons b l ih =>
    have hb := h s b
    have hl := ih (g s b)
    exact ⟨hl.loans.trans hb.loans, hb.findings.trans hl.findings, hl.replay.trans hb.replay⟩

/-- Whether the loans with some numbers are live at a position. -/
def Live (pos : Int) (held : List Nat) (s : Session) : Prop :=
  ∀ l ∈ s.loans, l.id ∈ held → l.activeAt pos = true

/-! ### Looking for loans -/

lemma conflict?_eq_none_iff {renewed : Option Nat} : s.conflict? p kind pos renewed = none ↔
    ∀ l ∈ s.loans, l.activeAt pos = true → l.Excludes p kind → renewed = some l.id := by
  rw [conflict?, find?_eq_none]
  simp only [liveLoans, mem_filter, Bool.and_eq_true, Bool.or_eq_true,
    decide_eq_true_eq, ne_eq,
    and_imp, not_and, Decidable.not_not, Loan.Excludes]

lemma sameLoan?_eq_some {l : Loan} (h : s.sameLoan? p kind pos = some l) :
    l ∈ s.loans ∧ l.Answers p kind pos := by
  have hl := find?_some h
  simp only [Bool.and_eq_true, decide_eq_true_eq] at hl
  exact ⟨mem_of_find?_eq_some h, hl.1.1, hl.1.2, hl.2⟩

lemma mem_carriedBy (h : Loan.Booked s.loans) {t : ScopeTree} {q : Place} {l : Loan}
    (hl : l ∈ s.loans)
    (hid : l.id ∈ s.carriedBy t q pos) : l.activeAt pos = true ∧ l.heldBy t q.base pos = true := by
  obtain ⟨k, hk, hkl⟩ := mem_map.mp hid
  obtain ⟨hk, hboth⟩ := mem_filter.mp hk
  rw [h.eq_of_id hl hk hkl.symm]
  rwa [Bool.and_eq_true] at hboth

lemma live_carriedBy (h : Loan.Booked s.loans) (t : ScopeTree) (q : Place) :
    s.Live pos (s.carriedBy t q pos) :=
  fun _ hl hid => (mem_carriedBy h hl hid).1

end Session

namespace Context

variable {c : Context} {s s' m : Session} {p : Place} {kind : LoanKind} {pos : Int} {span : Span}
  {a : Access} {k : List Nat × Session} {held : List Nat} {l : Loan} {e : Event}

/-! ### Accesses -/

variable (hc : c.tracksLoans = true) (h : c.access pos span s a = .ok k)

include hc h

/-- An access does nothing to loans, or grants one that nothing excludes. -/
lemma access_cases :
    s.Idle k.2 ∨ ∃ p kind, a = .lend p kind ∧ s.sameLoan? p kind pos = none ∧
      s.conflict? p kind pos none = none ∧ k.2 = s.grant p kind pos span := by
  cases a with
  | read p =>
    cases h
    refine .inl ?_
    unfold read
    split
    · exact .report s _
    · exact notes_noteRead.still.idle
  | move p =>
    cases h
    refine .inl ?_
    unfold move
    split
    · exact .report s _
    · exact notes_noteMove.still.idle.withFlow _
  | write p =>
    cases h
    refine .inl ?_
    unfold write
    split
    · exact .report s _
    · exact (notes_noteMutability.still.trans notes_noteWrite.still).idle.withFlow _
  | lend p kind =>
    rcases lend_cases hc h with ⟨ref, -, rfl⟩ | ⟨behind, -, -, ⟨f, -, rfl⟩ | ⟨hconf, rfl⟩⟩
    · exact .inl (.report s _)
    · exact .inl (.report s _)
    · unfold grantLoan
      cases hsame : s.sameLoan? p kind pos with
      | some l => exact .inl (.refl s)
      | none =>
        rw [hsame] at hconf
        exact .inr ⟨p, kind, rfl, hsame, hconf, rfl⟩

lemma change_access : k.2.loans = s.loans ∨ Loan.Change c.tree pos s.loans k.2.loans := by
  rcases access_cases hc h with hidle | ⟨p, kind, -, -, hconf, hk⟩
  · exact .inl hidle.loans
  · rw [hk]
    refine .inr (.grant p kind span fun l hl hex => ?_)
    by_contra hactive
    cases Session.conflict?_eq_none_iff.mp hconf l hl (by simpa using hactive) hex

lemma booked_access (hb : Loan.Booked s.loans) : Loan.Booked k.2.loans := by
  rcases change_access hc h with hsame | hchange
  · rwa [hsame]
  · exact hb.change hchange

lemma live_of_access (hl : s.Live pos held) : k.2.Live pos held := by
  rcases access_cases hc h with hidle | ⟨p, kind, -, -, -, hk⟩
  · rwa [Session.Live, hidle.loans]
  · rw [hk]
    intro l hmem hid
    rcases mem_append.mp hmem with hmem | hmem
    · exact hl l hmem hid
    · rw [mem_singleton.mp hmem]
      simp [Loan.activeAt]

omit h

omit hc in
/-- A loan that comes with a granted borrow starts there, or the reference that the place lies
behind carries it. -/
lemma mem_grantLoan (hb : Loan.Booked s.loans) {behind : Option Place}
    (hb' : Loan.Booked (c.grantLoan p kind pos span behind s).2.loans)
    (hl : l ∈ (c.grantLoan p kind pos span behind s).2.loans)
    (hid : l.id ∈ (c.grantLoan p kind pos span behind s).1) : l.start = pos ∨
      ∃ r, behind = some r ∧ l.activeAt pos = true ∧ l.heldBy c.tree r.base pos = true := by
  unfold grantLoan at hb' hl hid
  cases hsame : s.sameLoan? p kind pos with
  | some k =>
    obtain ⟨hk, -, -, hstart⟩ := Session.sameLoan?_eq_some hsame
    rw [hsame] at hl hid
    rcases mem_cons.mp hid with hid | hid
    · rw [hb.eq_of_id hl hk hid]
      exact .inl hstart
    · cases behind with
      | none => cases hid
      | some r => exact .inr ⟨r, rfl, Session.mem_carriedBy hb hl hid⟩
  | none =>
    rw [hsame] at hb' hl hid
    rcases mem_cons.mp hid with hid | hid
    · have hlast : (s.grant p kind pos span).loans[s.loans.length]? =
          some ⟨s.loans.length, p, kind, pos, span, pos, [], none⟩ := getElem?_concat_length
      rw [hb'.eq_of_id hl (mem_of_getElem? hlast) hid]
      exact .inl rfl
    · cases behind with
      | none => cases hid
      | some r => exact .inr ⟨r, rfl, Session.mem_carriedBy hb' hl hid⟩

/-- The loans that a borrow hands on are new, or held by the reference behind it. -/
lemma mem_access (h : c.access pos span s a = .ok k) (hb : Loan.Booked s.loans) (hl : l ∈ k.2.loans)
    (hid : l.id ∈ k.1) :
    ∃ p kind, a = .lend p kind ∧ (l.start = pos ∨
      ∃ r, c.typing.refPrefix? p = .ok (some r) ∧ l.activeAt pos = true ∧
        l.heldBy c.tree r.base pos = true) := by
  cases a with
  | read p | move p | write p =>
    cases h
    cases hid
  | lend p kind =>
    have hb' := booked_access hc h hb
    rcases lend_cases hc h with ⟨ref, -, rfl⟩ | ⟨behind, -, hbehind, ⟨f, -, rfl⟩ | ⟨-, rfl⟩⟩
    · cases hid
    · cases hid
    · refine ⟨p, kind, rfl, (mem_grantLoan hb hb' hl hid).imp_right ?_⟩
      rintro ⟨r, rfl, hcarried⟩
      exact ⟨r, hbehind, hcarried⟩

lemma live_access (h : c.access pos span s a = .ok k) (hb : Loan.Booked s.loans) :
    k.2.Live pos k.1 := by
  intro l hl hid
  obtain ⟨-, -, -, hstart | ⟨r, -, hactive, -⟩⟩ := mem_access hc h hb hl hid
  · rw [← hstart]
    exact ((booked_access hc h hb).proper l hl).activeAt_start
  · exact hactive

/-! ### Steps at a position -/

/-- Steps at a position from one session to another, with the accesses among them and the sessions
that these meet. -/
inductive Deals (c : Context) (pos : Int) : List (Access × Session) → Session → Session → Prop
  | idle {s s' : Session} (h : s.Idle s') : Deals c pos [] s s'
  | attach {s : Session} (held : List Nat) (b : Binding) (h : s.Live pos held) :
      Deals c pos [] s (s.attach c.tree held b pos)
  | access {s : Session} {a : Access} {span : Span} {k : List Nat × Session}
      (h : c.access pos span s a = .ok k) : Deals c pos [(a, s)] s k.2
  | append {as bs : List (Access × Session)} {s m s' : Session} (h : Deals c pos as s m)
      (h' : Deals c pos bs m s') : Deals c pos (as ++ bs) s s'

variable {as : List (Access × Session)}

omit hc in
lemma Deals.trans (h : c.Deals pos as s m) (h' : c.Deals pos [] m s') : c.Deals pos as s s' := by
  simpa using h.append h'

lemma Deals.findings (h : c.Deals pos as s s') : s.findings <+: s'.findings := by
  induction h with
  | idle h => exact h.findings
  | attach held b h => exact prefix_refl _
  | access h =>
    rcases access_cases hc h with hidle | ⟨p, kind, -, -, -, hk⟩
    · exact hidle.findings
    · rw [hk]
      exact prefix_refl _
  | append _ _ ih ih' => exact ih.trans ih'

lemma Deals.replay (h : c.Deals pos as s s') : s'.replay = s.replay := by
  induction h with
  | idle h => exact h.replay
  | attach held b h => rfl
  | access h =>
    rcases access_cases hc h with hidle | ⟨p, kind, -, -, -, hk⟩
    · exact hidle.replay
    · rw [hk]
      rfl
  | append _ _ ih ih' => exact ih'.trans ih

lemma Deals.induct {P : List Loan → Prop}
    (hP : ∀ ls ls', Loan.Change c.tree pos ls ls' → P ls → P ls')
    (h : c.Deals pos as s s') (hs : P s.loans) : P s'.loans := by
  induction h with
  | idle h => rwa [h.loans]
  | attach held b h => exact hP _ _ (.attach held b h) hs
  | access h =>
    rcases change_access hc h with hsame | hchange
    · rwa [hsame]
    · exact hP _ _ hchange hs
  | append _ _ ih ih' => exact ih' (ih hs)

lemma Deals.booked (h : c.Deals pos as s s') (hs : Loan.Booked s.loans) : Loan.Booked s'.loans :=
  h.induct hc (fun _ _ hchange hb => hb.change hchange) hs

lemma Deals.live (h : c.Deals pos as s s') (hs : s.Live pos held) : s'.Live pos held := by
  induction h with
  | idle h => rwa [Session.Live, h.loans]
  | attach held' b h =>
    intro l hl hid
    obtain ⟨k, hk, rfl⟩ := mem_map.mp hl
    split at hid
    · rename_i hheld
      rw [if_pos hheld]
      rw [Loan.id_attach] at hid
      exact Loan.activeAt_attach (hs k hk hid) c.tree b
    · rename_i hheld
      rw [if_neg hheld]
      exact hs k hk hid
  | access h => exact live_of_access hc h hs
  | append _ _ ih ih' => exact ih' (ih hs)

omit hc in
lemma Deals.split {u : Session} (h : c.Deals pos as s s') (ha : (a, u) ∈ as) :
    ∃ xs ys span k, c.Deals pos xs s u ∧ c.access pos span u a = .ok k ∧ c.Deals pos ys k.2 s' := by
  induction h with
  | idle h => cases ha
  | attach held b h => cases ha
  | @access s _ span k h =>
    obtain ⟨rfl, rfl⟩ := Prod.mk.inj (mem_singleton.mp ha)
    exact ⟨[], [], span, k, .idle (.refl _), h, .idle (.refl _)⟩
  | append h h' ih ih' =>
    rcases mem_append.mp ha with ha | ha
    · obtain ⟨xs, ys, span, k, hx, hk, hy⟩ := ih ha
      exact ⟨xs, _, span, k, hx, hk, hy.append h'⟩
    · obtain ⟨xs, ys, span, k, hx, hk, hy⟩ := ih' ha
      exact ⟨_, ys, span, k, h.append hx, hk, hy⟩

/-! ### Events -/

/-- The course of an event deals with its accesses, and what is at hand is live. -/
lemma Course.deals {named : Binding → Prop} {held' : List Nat}
    (h : c.Course pos named as held s held' s') (hb : Loan.Booked s.loans) (hs : s.Live pos held) :
    c.Deals pos as s s' ∧ s'.Live pos held' := by
  induction h with
  | refl held s => exact ⟨.idle (.refl s), hs⟩
  | begin held s loc | mark held s _ _ => exact ⟨.idle ⟨rfl, prefix_refl _, rfl⟩, hs⟩
  | access held h _ =>
    refine ⟨.access h, fun l hl hid => ?_⟩
    rcases mem_append.mp hid with hid | hid
    · exact live_of_access hc h hs l hl hid
    · exact live_access hc h hb l hl hid
  | @carry held s p _ =>
    refine ⟨.idle (.refl s), fun l hl hid => ?_⟩
    rw [carried, if_pos hc] at hid
    rcases mem_append.mp hid with hid | hid
    · exact hs l hl hid
    · exact Session.live_carriedBy hb c.tree p l hl hid
  | @attach held s ids b hids _ =>
    have hattach : c.Deals pos [] s (s.attach c.tree ids b pos) :=
      .attach ids b fun l hl hid => hs l hl (hids hid)
    exact ⟨hattach, hattach.live hc hs⟩
  | dangle held s l span =>
    have hidle : c.Deals pos [] s (c.reportDangling l pos span true s) :=
      .idle still_reportDangling.idle
    exact ⟨hidle, hidle.live hc hs⟩
  | append _ _ ih ih' =>
    obtain ⟨hfirst, hlive⟩ := ih hb hs
    obtain ⟨hrest, hlive'⟩ := ih' (hfirst.booked hc hb) hlive
    exact ⟨hfirst.append hrest, hlive'⟩

omit hc in
lemma idle_leaveFunction (pos : Int) (s : Session) : s.Idle (c.leaveFunction pos s) := by
  refine .withFlow (.foldl (fun s scope => ?_) s.scopes s) _
  exact (Session.still_destroy s c.tree scope.id pos).idle

omit hc in
lemma idle_exitScope {scope : Scope} (h : c.exitScope scope s = .ok s') : s.Idle s' := by
  rw [exitScope_eq] at h
  obtain ⟨m, hm, h⟩ := bind_eq_ok.mp h
  cases h
  have hidle : s.Idle m := by
    unfold finishScope at hm
    split at hm
    · cases hm
      exact .refl s
    · exact ((Session.still_destroy s c.tree scope.id scope.stop).trans
        (dangled_checkDangling hm).still).idle
  exact ⟨hidle.loans, hidle.findings, hidle.replay⟩

omit hc in
lemma idle_execute (hk : e.kind ≠ .step) (h : c.execute e s = .ok s') : s.Idle s' := by
  unfold execute at h
  cases hkind : e.kind with
  | enter =>
    rw [hkind] at h
    obtain ⟨scope, -, rfl⟩ := map_eq_ok.mp h
    exact ⟨rfl, prefix_refl _, rfl⟩
  | exit =>
    rw [hkind] at h
    obtain ⟨scope, -, h⟩ := bind_eq_ok.mp h
    exact idle_exitScope h
  | step => exact absurd hkind hk

/-- What an event tries is what it deals, at its own position. -/
theorem deals_execute (hb : Loan.Booked s.loans) (h : c.execute e s = .ok s') :
    ∃ as, c.Deals e.pos as s s' ∧ ∀ a u, c.Tries e s a u ↔ (a, u) ∈ as := by
  by_cases hk : e.kind = .step
  · obtain ⟨as, held, m, hcourse, hmem, rfl⟩ := runs_execute hk h
    obtain ⟨hdeals, -⟩ := hcourse.deals hc hb fun _ _ hid => nomatch hid
    refine ⟨as, ?_, fun a u => (tries_iff hk s a u).symm.trans (hmem a u)⟩
    split
    · exact hdeals.trans (.idle (idle_leaveFunction e.pos m))
    · exact hdeals
  · exact ⟨[], .idle (idle_execute hk h),
      fun a u => ⟨fun ha => absurd ha.1 hk, fun ha => nomatch ha⟩⟩

end Context

end Ownership
