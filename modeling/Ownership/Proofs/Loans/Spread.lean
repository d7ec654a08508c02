import Ownership.Proofs.Loans.Deals
import Ownership.Proofs.Loops.Likeness
import Ownership.Proofs.Moves.Bases

/-!
# How loans spread

A new loan is one of a place that the event names. A binding comes to hold a loan only where the
loan is at hand: it starts there, or a binding that the event names holds it. The new holder is
declared by the event or named by it. A loan is noted as dangling only together with a report.
-/

namespace Ownership

open List

/-! ### Reports of dangling loans -/

/-- Whether a violation is that a loan dangles. -/
def Violation.isDangling : Violation → Bool
  | danglingBorrow .. => true
  | _ => false

lemma Violation.isDangling_iff_code (v : Violation) :
    v.isDangling = true ↔ v.code = "E_DANGLING_BORROW" := by
  cases v <;> simp [isDangling, code]

lemma Finding.isDangling_of_repeats {f g : Finding} (h : f.repeats g = true) :
    f.violation.isDangling = g.violation.isDangling := by
  simp only [Finding.repeats, Bool.and_eq_true, decide_eq_true_eq] at h
  rw [Bool.eq_iff_iff, Violation.isDangling_iff_code, Violation.isDangling_iff_code, h.1.1]

namespace Session

def Dangles (s : Session) : Prop := ∃ f ∈ s.findings, f.violation.isDangling = true

lemma Dangles.of_prefix {s s' : Session} (h : s.findings <+: s'.findings) (hs : s.Dangles) :
    s'.Dangles := by
  obtain ⟨f, hf, hd⟩ := hs
  exact ⟨f, h.subset hf, hd⟩

lemma dangles_report (s : Session) {f : Finding} (hf : f.violation.isDangling = true) :
    (s.report f).Dangles := by
  obtain ⟨g, hg, hrepeats⟩ := s.exists_repeats_report f
  exact ⟨g, hg, (Finding.isDangling_of_repeats hrepeats).symm.trans hf⟩

lemma dangling_report (s : Session) (f : Finding) : (s.report f).dangling = s.dangling :=
  (congrArg Session.dangling (s.report_eq f) :)

lemma Notes.dangling {s s' : Session} {pos : Int} (h : s.Notes pos s') :
    s'.dangling = s.dangling := by
  cases h with
  | silent => rfl
  | report _ _ => exact dangling_report ..

end Session

/-! ### Single loans -/

/-- Whether a holder comes at a position where some bindings are named. -/
def Holder.Comes (t : ScopeTree) (named : Binding → Prop) (pos : Int) (h : Holder) : Prop :=
  h.since = pos ∧ (h.binding ∈ t.declaredBy pos ∨ named h.binding)

namespace Loan

/-- Whether a loan is at hand at a position where some bindings are named. -/
def AtHand (t : ScopeTree) (named : Binding → Prop) (pos : Int) (l : Loan) : Prop :=
  l.start = pos ∨ ∃ b, named b ∧ l.heldBy t b pos = true

/-- Whether a loan becomes another one by new holders, which come only if it is at hand. -/
structure Spreads (t : ScopeTree) (named : Binding → Prop) (pos : Int) (l l' : Loan) : Prop where
  id : l'.id = l.id
  place : l'.place = l.place
  start : l'.start = l.start
  keeps : ∀ h ∈ l.holders, h ∈ l'.holders
  comes : ∀ h ∈ l'.holders, h ∈ l.holders ∨ (l.AtHand t named pos ∧ h.Comes t named pos)

/-- Whether a loan is a new one of a named place. -/
structure Arises (t : ScopeTree) (named : Binding → Prop) (pos : Int) (l : Loan) : Prop where
  start : l.start = pos
  base : named l.place.base
  comes : ∀ h ∈ l.holders, h.Comes t named pos

variable {t : ScopeTree} {named : Binding → Prop} {pos : Int} {l m l' : Loan}

namespace Spreads

lemma refl (l : Loan) : l.Spreads t named pos l :=
  ⟨rfl, rfl, rfl, fun _ hh => hh, fun _ hh => .inl hh⟩

lemma atHand (h : l.Spreads t named pos l') (hl : l.AtHand t named pos) :
    l'.AtHand t named pos := by
  refine hl.imp h.start.trans ?_
  rintro ⟨b, hb, hheld⟩
  obtain ⟨x, hx, hx'⟩ := any_eq_true.mp hheld
  exact ⟨b, hb, any_eq_true.mpr ⟨x, h.keeps x hx, hx'⟩⟩

lemma of_atHand (h : l.Spreads t named pos l') (hl : l'.AtHand t named pos) :
    l.AtHand t named pos := by
  rcases hl with hstart | ⟨b, hb, hheld⟩
  · exact .inl (h.start.symm.trans hstart)
  · obtain ⟨x, hx, hx'⟩ := any_eq_true.mp hheld
    rcases h.comes x hx with hx | ⟨hl, -⟩
    · exact .inr ⟨b, hb, any_eq_true.mpr ⟨x, hx, hx'⟩⟩
    · exact hl

lemma trans (h : l.Spreads t named pos m) (h' : m.Spreads t named pos l') :
    l.Spreads t named pos l' where
  id := h'.id.trans h.id
  place := h'.place.trans h.place
  start := h'.start.trans h.start
  keeps x hx := h'.keeps x (h.keeps x hx)
  comes x hx := by
    rcases h'.comes x hx with hx | ⟨hm, hcomes⟩
    · exact h.comes x hx
    · exact .inr ⟨h.of_atHand hm, hcomes⟩

lemma attach {b : Binding} (hl : l.AtHand t named pos) (hb : b ∈ t.declaredBy pos ∨ named b) :
    l.Spreads t named pos (l.attach t b pos) := by
  rcases attach_cases t b pos l with he | ⟨-, hholders, -⟩
  · rw [he]
    exact .refl l
  · refine ⟨id_attach, place_attach .., start_attach, fun h hh => ?_, fun h hh => ?_⟩
    · rw [hholders]
      exact mem_append_left _ hh
    · rw [hholders] at hh
      refine (mem_append.mp hh).imp_right fun hh => ⟨hl, ?_⟩
      rw [mem_singleton.mp hh]
      exact ⟨rfl, hb⟩

end Spreads

lemma Arises.spreads (h : m.Arises t named pos) (h' : m.Spreads t named pos l') :
    l'.Arises t named pos where
  start := h'.start.trans h.start
  base := h'.place ▸ h.base
  comes x hx := (h'.comes x hx).elim (h.comes x) (·.2)

end Loan

/-! ### Sessions -/

namespace Session

/-- Whether loans spread from one session to another at a position where some bindings are named. -/
structure Spreads (t : ScopeTree) (named : Binding → Prop) (pos : Int) (s s' : Session) : Prop where
  loans : ∀ l' ∈ s'.loans, (∃ l ∈ s.loans, l.Spreads t named pos l') ∨ l'.Arises t named pos
  findings : s.findings <+: s'.findings
  dangling : s'.dangling = s.dangling ∨ s'.Dangles

/-- Whether the loans with some numbers are at hand. -/
def AtHand (t : ScopeTree) (named : Binding → Prop) (pos : Int) (held : List Nat) (s : Session) :
    Prop :=
  ∀ l ∈ s.loans, l.id ∈ held → l.AtHand t named pos

variable {t : ScopeTree} {named : Binding → Prop} {pos : Int} {s m s' : Session} {held : List Nat}

namespace Spreads

lemma of_idle (h : s.Idle s') (hd : s'.dangling = s.dangling ∨ s'.Dangles) :
    s.Spreads t named pos s' where
  loans l hl := .inl ⟨l, h.loans ▸ hl, .refl l⟩
  findings := h.findings
  dangling := hd

lemma refl (s : Session) : s.Spreads t named pos s := .of_idle (.refl s) (.inl rfl)

lemma trans (h : s.Spreads t named pos m) (h' : m.Spreads t named pos s') :
    s.Spreads t named pos s' where
  loans l hl := by
    rcases h'.loans l hl with ⟨k, hk, hkl⟩ | harises
    · rcases h.loans k hk with ⟨j, hj, hjk⟩ | harises
      · exact .inl ⟨j, hj, hjk.trans hkl⟩
      · exact .inr (harises.spreads hkl)
    · exact .inr harises
  findings := h.findings.trans h'.findings
  dangling := by
    rcases h'.dangling with he | hd
    · refine h.dangling.imp he.trans ?_
      exact Dangles.of_prefix h'.findings
    · exact .inr hd

lemma atHand (h : s.Spreads t named pos s') (hs : s.AtHand t named pos held) :
    s'.AtHand t named pos held := by
  intro l hl hid
  rcases h.loans l hl with ⟨k, hk, hkl⟩ | harises
  · exact hkl.atHand (hs k hk (hkl.id ▸ hid))
  · exact .inl harises.start

lemma withFlow (h : s.Spreads t named pos s') (f : Flow) : s.Spreads t named pos (s'.withFlow f) :=
  ⟨h.loans, h.findings, h.dangling⟩

lemma attach {b : Binding} (hs : s.AtHand t named pos held)
    (hb : b ∈ t.declaredBy pos ∨ named b) : s.Spreads t named pos (s.attach t held b pos) where
  loans l hl := by
    obtain ⟨k, hk, rfl⟩ := mem_map.mp hl
    refine .inl ⟨k, hk, ?_⟩
    split
    · rename_i hid
      exact .attach (hs k hk hid) hb
    · exact .refl k
  findings := prefix_refl _
  dangling := .inl rfl

lemma grant {p : Place} (hp : named p.base) (kind : LoanKind) (span : Span) :
    s.Spreads t named pos (s.grant p kind pos span) where
  loans l hl := by
    rcases mem_append.mp hl with hl | hl
    · exact .inl ⟨l, hl, .refl l⟩
    · rw [mem_singleton.mp hl]
      exact .inr ⟨rfl, hp, fun h hh => nomatch hh⟩
  findings := prefix_refl _
  dangling := .inl rfl

lemma destroy (s : Session) (scope : Nat) (q : Int) : s.Spreads t named pos (s.destroy t scope q) :=
  .of_idle (still_destroy s t scope q).idle (.inl (dangling_destroy ..))

lemma foldl {β : Type} {g : Session → β → Session}
    (h : ∀ (s : Session) b, s.Spreads t named pos (g s b)) (l : List β) (s : Session) :
    s.Spreads t named pos (l.foldl g s) := by
  induction l generalizing s with
  | nil => exact .refl s
  | cons b l ih => exact (h s b).trans (ih (g s b))

end Spreads

lemma atHand_carriedBy (hb : Loan.Booked s.loans) {q : Place} (hq : named q.base) :
    s.AtHand t named pos (s.carriedBy t q pos) :=
  fun _ hl hid => .inr ⟨q.base, hq, (mem_carriedBy hb hl hid).2⟩

end Session

/-! ### Accesses -/

lemma Typing.base_of_refPrefix? {g : Typing} {p r : Place} (h : g.refPrefix? p = .ok (some r)) :
    r.base = p.base := by
  have hmem : ∀ ps : List Place, g.lastRef? ps = .ok (some r) → r ∈ ps := by
    intro ps
    induction ps with
    | nil => exact fun h => nomatch h
    | cons q rest ih =>
      intro h
      obtain ⟨ty, -, h⟩ := bind_eq_ok.mp h
      obtain ⟨here, -, h⟩ := bind_eq_ok.mp h
      obtain ⟨later, hlater, h⟩ := bind_eq_ok.mp h
      rcases Option.or_eq_some_iff.mp (Except.ok.inj h) with rfl | ⟨-, hhere⟩
      · exact mem_cons_of_mem _ (ih hlater)
      · split at hhere
        · rw [Option.some.inj hhere]
          exact mem_cons_self
        · cases hhere
  exact (Place.covers_iff.mp (Place.mem_strictPrefixes.mp (hmem _ h)).1).1

namespace Context

variable {c : Context} {named : Binding → Prop} {s s' : Session} {p : Place} {pos : Int}
  {span : Span} {held : List Nat} {a : Access} {k : List Nat × Session}

/-- An access notes no dangling loan. -/
lemma dangling_access (hc : c.tracksLoans = true) (h : c.access pos span s a = .ok k) :
    k.2.dangling = s.dangling := by
  cases a with
  | read p =>
    cases h
    dsimp only
    unfold read
    split
    · exact Session.dangling_report ..
    · exact notes_noteRead.dangling
  | move p =>
    cases h
    dsimp only
    unfold move
    split
    · exact Session.dangling_report ..
    · exact notes_noteMove.dangling
  | write p =>
    cases h
    dsimp only
    unfold write
    split
    · exact Session.dangling_report ..
    · exact notes_noteWrite.dangling.trans notes_noteMutability.dangling
  | lend p kind =>
    rcases lend_cases hc h with ⟨ref, -, rfl⟩ | ⟨behind, -, -, ⟨f, -, rfl⟩ | ⟨-, rfl⟩⟩
    · exact Session.dangling_report ..
    · exact Session.dangling_report ..
    · exact (grantLoan_keeps c p kind pos span behind s).2.2.2

lemma spreads_access (hc : c.tracksLoans = true) (h : c.access pos span s a = .ok k)
    (hnamed : ∀ p kind, a = .lend p kind → named p.base) : s.Spreads c.tree named pos k.2 := by
  rcases access_cases hc h with hidle | ⟨p, kind, rfl, -, -, hk⟩
  · exact .of_idle hidle (.inl (dangling_access hc h))
  · rw [hk]
    exact .grant (hnamed p kind rfl) kind span

lemma atHand_access (hc : c.tracksLoans = true) (h : c.access pos span s a = .ok k)
    (hb : Loan.Booked s.loans) (hnamed : ∀ p kind, a = .lend p kind → named p.base) :
    k.2.AtHand c.tree named pos k.1 := by
  intro l hl hid
  obtain ⟨p, kind, ha, hstart | ⟨r, hr, -, hheld⟩⟩ := mem_access hc h hb hl hid
  · exact .inl hstart
  · refine .inr ⟨r.base, ?_, hheld⟩
    rw [Typing.base_of_refPrefix? hr]
    exact hnamed p kind ha

/-! ### Rules -/

lemma spreads_reportDangling (l : Loan) (q : Int) (viaReturn : Bool) :
    s.Spreads c.tree named pos (c.reportDangling l q span viaReturn s) :=
  .of_idle still_reportDangling.idle (.inr (Session.dangles_report _ rfl))

lemma Dangled.spreads {q : Int} {viaReturn : Bool} (h : c.Dangled q viaReturn s s') :
    s.Spreads c.tree named pos s' := by
  induction h with
  | refl s => exact .refl s
  | report _ _ _ ih => exact (spreads_reportDangling _ _ _).trans ih

lemma spreads_exitScope {scope : Scope} (h : c.exitScope scope s = .ok s') :
    s.Spreads c.tree named pos s' := by
  rw [exitScope_eq] at h
  obtain ⟨m, hm, h⟩ := bind_eq_ok.mp h
  cases h
  have hfinish : s.Spreads c.tree named pos m := by
    unfold finishScope at hm
    split at hm
    · cases hm
      exact .refl s
    · exact (Session.Spreads.destroy s _ _).trans (dangled_checkDangling hm).spreads
  exact ⟨hfinish.loans, hfinish.findings, hfinish.dangling⟩

lemma spreads_leaveFunction (q : Int) (s : Session) :
    s.Spreads c.tree named pos (c.leaveFunction q s) :=
  .withFlow (.foldl (fun s scope => .destroy s scope.id q) s.scopes s) _

/-- The course of an event spreads loans, and what it has at hand stays so. -/
lemma Course.spreads (hc : c.tracksLoans = true) {as : List (Access × Session)} {held' : List Nat}
    (h : c.Course pos named as held s held' s') (hb : Loan.Booked s.loans) (hlive : s.Live pos held)
    (hs : s.AtHand c.tree named pos held) :
    s.Spreads c.tree named pos s' ∧ s'.AtHand c.tree named pos held' := by
  induction h with
  | refl held s => exact ⟨.refl s, hs⟩
  | begin held s loc | mark held s _ _ =>
    exact ⟨.of_idle ⟨rfl, prefix_refl _, rfl⟩ (.inl rfl), hs⟩
  | access held h ha =>
    have hspreads := spreads_access hc h ha
    refine ⟨hspreads, fun l hl hid => ?_⟩
    rcases mem_append.mp hid with hid | hid
    · exact hspreads.atHand hs l hl hid
    · exact atHand_access hc h hb ha l hl hid
  | carry held s hp =>
    refine ⟨.refl s, fun l hl hid => ?_⟩
    rw [carried, if_pos hc] at hid
    rcases mem_append.mp hid with hid | hid
    · exact hs l hl hid
    · exact Session.atHand_carriedBy hb hp l hl hid
  | attach s hids hb' =>
    have hspreads := Session.Spreads.attach (fun l hl hid => hs l hl (hids hid)) hb'
    exact ⟨hspreads, hspreads.atHand hs⟩
  | dangle held s l span =>
    have hspreads : s.Spreads c.tree named pos (c.reportDangling l pos span true s) :=
      spreads_reportDangling l pos true
    exact ⟨hspreads, hspreads.atHand hs⟩
  | append h _ ih ih' =>
    obtain ⟨hfirst, hhand⟩ := ih hb hlive hs
    obtain ⟨hdeals, hlive'⟩ := h.deals hc hb hlive
    obtain ⟨hrest, hhand'⟩ := ih' (hdeals.booked hc hb) hlive' hhand
    exact ⟨hfirst.trans hrest, hhand'⟩

/-- Executing an event spreads loans at its position, by what it names. -/
theorem spreads_execute (hc : c.tracksLoans = true) (hb : Loan.Booked s.loans) {e : Event}
    (h : c.execute e s = .ok s') :
    s.Spreads c.tree (fun b => c.Names e (.ofBinding b)) e.pos s' := by
  cases hk : e.kind with
  | enter =>
    obtain ⟨scope, -, rfl⟩ := execute_enter hk h
    exact .of_idle ⟨rfl, prefix_refl _, rfl⟩ (.inl rfl)
  | exit =>
    rw [execute, hk] at h
    obtain ⟨scope, -, h⟩ := bind_eq_ok.mp h
    exact spreads_exitScope h
  | step =>
    obtain ⟨as, held, m, hcourse, -, rfl⟩ := runs_execute hk h
    obtain ⟨hspreads, -⟩ :=
      hcourse.spreads hc hb (fun _ _ hid => nomatch hid) fun _ _ hid => nomatch hid
    split
    · exact hspreads.trans (spreads_leaveFunction e.pos m)
    · exact hspreads

end Context

end Ownership
