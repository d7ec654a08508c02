import Ownership.Proofs.Control.Visits
import Ownership.Proofs.Loans.Deals

/-!
# Decisions about loans stand

An access is accepted or refused by the loans as they are at that moment, while their windows still
grow. What is decided nevertheless agrees with the windows in the end: what happens at a position
cannot make a loan live at an earlier one. After the last visit of an event nothing happens before
it, and if there were no findings, the accesses of the last visit were all accepted.
-/

namespace Ownership

open List

/-! ### Quiet positions -/

lemma Projection.overlap_comm (as bs : List Projection) : overlap as bs = overlap bs as := by
  induction as generalizing bs with
  | nil => cases bs <;> simp [overlap]
  | cons a as ih =>
    cases bs with
    | nil => simp [overlap]
    | cons b bs =>
      by_cases h : a = b
      · simp [overlap, h, ih bs]
      · have h' : ¬b = a := Ne.symm h
        cases a <;> cases b <;> simp only [overlap, if_neg h, if_neg h', ih bs]

lemma Place.overlaps_comm (p q : Place) : p.overlaps q = q.overlaps p := by
  simp only [overlaps, Projection.overlap_comm p.path q.path, eq_comm]

namespace Loan

variable {l k : Loan} {ls ls' : List Loan} {t : ScopeTree} {q pos : Int}

lemma Excludes.symm (h : l.Excludes k.place k.kind) : k.Excludes l.place l.kind :=
  ⟨by rw [Place.overlaps_comm]; exact h.1, h.2.symm⟩

lemma Booked.not_excludes (h : Booked ls) (hl : l ∈ ls) (hk : k ∈ ls) (hne : l ≠ k)
    (hstart : l.start = k.start) : ¬l.Excludes k.place k.kind := by
  have : Std.Symm fun l k : Loan => l.start = k.start → ¬l.Excludes k.place k.kind :=
    ⟨fun _ _ hn hs hex => hn hs.symm hex.symm⟩
  exact h.apart.forall hl hk hne hstart

/-- Whether none of certain loans that start before a position is live there. -/
def Quiet (bad : Loan → Prop) (q : Int) (ls : List Loan) : Prop :=
  ∀ l ∈ ls, bad l → l.start < q → l.activeAt q = false

/-- What happens at a position does not disturb earlier ones. -/
lemma Quiet.change {bad : Loan → Prop}
    (hbad : ∀ l b since, bad (attach t b since l) ↔ bad l) (hb : Booked ls) (hq : q ≤ pos)
    (hc : Change t pos ls ls') (h : Quiet bad q ls) : Quiet bad q ls' := by
  intro l hl hbl hstart
  cases hc with
  | grant place kind span hfree =>
    rcases mem_append.mp hl with hl | hl
    · exact h l hl hbl hstart
    · rw [mem_singleton.mp hl] at hstart
      exact (hstart.not_ge hq).elim
  | attach held b hlive =>
    obtain ⟨k, hk, rfl⟩ := mem_map.mp hl
    split at hbl
    · rename_i hheld
      rw [if_pos hheld, start_attach] at hstart
      -- A live loan was live at all positions since its start, so this one is not quiet.
      have hactive := (hb.proper k hk).activeAt_of_le (hlive k hk hheld) hstart.le hq
      rw [h k hk ((hbad k b pos).mp hbl) hstart] at hactive
      cases hactive
    · rename_i hheld
      rw [if_neg hheld] at hstart ⊢
      exact h k hk hbl hstart

end Loan

namespace Context

variable {c : Context} {s s' m u v : Session} {pos q : Int} {span : Span} {e : Event} {a : Access}
  {k : List Nat × Session} {rs : List Request} {l : Loan}

/-! ### Accepted accesses -/

/-- Whether a loan forbids an access while it is live: an exclusive one forbids to read overlapping
places and both kinds forbid to move and to write them, as far as this is to be reported. -/
def Bars (c : Context) (l : Loan) : Access → Prop
  | .read p => l.Excludes p .shared
  | .move p => c.options.reportMovesWhileBorrowed = true ∧ l.Excludes p .exclusive
  | .write p => c.options.reportWritesWhileBorrowed = true ∧ l.Excludes p .exclusive
  | .lend p kind => l.Excludes p kind

lemma bars_attach (a : Access) (t : ScopeTree) (l : Loan) (b : Binding) (since : Int) :
    c.Bars (l.attach t b since) a ↔ c.Bars l a := by
  cases a <;> simp [Bars]

lemma findings_report_ne {f : Finding} (h : s.replay = 0 ∨ (s.report f).findings = []) :
    (s.report f).findings ≠ s.findings := by
  intro heq
  unfold Session.report at h heq
  split at heq
  · rename_i hrep
    rw [if_pos hrep] at h
    rw [Bool.and_eq_true, decide_eq_true_eq] at hrep
    rcases h with h | h
    · omega
    · rw [h] at hrep
      cases hrep.2
  · have hlen := congrArg length heq
    simp at hlen

lemma quiet_of_conflict {p : Place} {kind : LoanKind} {renewed : Option Nat}
    (h : s.conflict? p kind pos renewed = none)
    (hren : ∀ l ∈ s.loans, renewed = some l.id → l.start = pos) :
    Loan.Quiet (fun l => l.Excludes p kind) pos s.loans := by
  intro l hl hex hstart
  cases hactive : l.activeAt pos with
  | false => rfl
  | true =>
    have := hren l hl (Session.conflict?_eq_none_iff.mp h l hl hactive hex)
    omega

/-- An access that reports nothing meets no live loan that bars it. -/
lemma quiet_of_access (hc : c.tracksLoans = true) (hb : Loan.Booked s.loans)
    (h : c.access pos span s a = .ok k)
    (hs : (s.replay = 0 ∨ k.2.findings = []) ∧ k.2.findings = s.findings) :
    Loan.Quiet (c.Bars · a) pos s.loans := by
  have hnone : ∀ l ∈ s.loans, (none : Option Nat) = some l.id → l.start = pos :=
    fun l _ hl => nomatch hl
  cases a with
  | read p =>
    cases h
    simp only [read] at hs
    split at hs
    · exact (findings_report_ne hs.1 hs.2).elim
    · simp only [noteRead, hc, if_true] at hs
      split at hs
      · exact (findings_report_ne hs.1 hs.2).elim
      · rename_i hconf
        exact quiet_of_conflict hconf hnone
  | move p =>
    cases h
    intro l hl hbar hstart
    obtain ⟨hopt, hex⟩ := hbar
    simp only [move] at hs
    split at hs
    · exact (findings_report_ne hs.1 hs.2).elim
    · simp only [noteMove, hc, hopt, Bool.and_self, if_true, Session.withFlow] at hs
      split at hs
      · exact (findings_report_ne hs.1 hs.2).elim
      · rename_i hconf
        exact quiet_of_conflict hconf hnone l hl hex hstart
  | write p =>
    cases h
    intro l hl hbar hstart
    obtain ⟨hopt, hex⟩ := hbar
    simp only [write] at hs
    split at hs
    · exact (findings_report_ne hs.1 hs.2).elim
    · generalize hm : c.noteMutability p pos span s = m at hs
      have hstill : s.Still m := hm ▸ notes_noteMutability.still
      rw [← hstill.loans] at hl
      have hle : m.findings <+: (c.noteWrite p pos span m).findings :=
        notes_noteWrite.still.findings
      have hkm := hle.eq_of_length_le
        (hs.2.symm ▸ hstill.findings.length_le)
      replace hs := And.intro (hstill.replay ▸ hs.1) hkm.symm
      simp only [noteWrite, hc, hopt, Bool.and_self, if_true, Session.withFlow] at hs
      split at hs
      · exact (findings_report_ne hs.1 hs.2).elim
      · rename_i hconf
        exact quiet_of_conflict hconf (fun l _ hl => nomatch hl) l hl hex hstart
  | lend p kind =>
    rcases lend_cases hc h with ⟨ref, -, rfl⟩ | ⟨behind, -, -, ⟨f, -, rfl⟩ | ⟨hconf, -⟩⟩
    · exact (findings_report_ne hs.1 hs.2).elim
    · exact (findings_report_ne hs.1 hs.2).elim
    · refine quiet_of_conflict hconf fun l hl hsame => ?_
      -- The loan that is asked for again starts here.
      obtain ⟨r, hr, hid⟩ := Option.map_eq_some_iff.mp hsame
      obtain ⟨hrl, -, -, hstart⟩ := Session.sameLoan?_eq_some hr
      rw [← hb.eq_of_id hrl hl hid]
      exact hstart

/-! ### Trying again -/

lemma exists_of_asks (h : c.Asks pos rs s a u) : ∃ r ∈ rs, c.asked r = .ok a := by
  induction rs generalizing s with
  | nil => cases h
  | cons r rest ih =>
    rcases h with ⟨ha, -⟩ | ⟨k, -, h⟩
    · exact ⟨r, mem_cons_self, ha⟩
    · obtain ⟨r', hr', ha⟩ := ih h
      exact ⟨r', mem_cons_of_mem _ hr', ha⟩

lemma asks_of_mem (h : c.performAll pos s rs = .ok k) {r : Request} (hr : r ∈ rs)
    (ha : c.asked r = .ok a) : ∃ u, c.Asks pos rs s a u := by
  induction rs generalizing s k with
  | nil => cases hr
  | cons r' rest ih =>
    rw [performAll_cons] at h
    obtain ⟨k₁, h₁, h⟩ := bind_eq_ok.mp h
    obtain ⟨k₂, h₂, rfl⟩ := map_eq_ok.mp h
    rcases mem_cons.mp hr with rfl | hr
    · exact ⟨s, .inl ⟨ha, rfl⟩⟩
    · obtain ⟨u, hu⟩ := ih h₂ hr
      exact ⟨u, .inr ⟨k₁, h₁, hu⟩⟩

/-- Requests that are performed to the end ask for the same accesses in all sessions. -/
lemma asks_again (h : c.Asks pos rs s a u) (hm : c.performAll pos m rs = .ok k) :
    ∃ v, c.Asks pos rs m a v := by
  obtain ⟨r, hr, ha⟩ := exists_of_asks h
  exact asks_of_mem hm hr ha

lemma armTries_again {sel : Selection} {arm : Arm} {p : Option Place}
    (h : c.ArmTries sel p pos arm s a u) (hm : c.bindArm sel p pos arm m = .ok s') :
    ∃ v, c.ArmTries sel p pos arm m a v := by
  obtain ⟨place, types, takes, rfl, htypes, htakes, hcase⟩ := h
  rcases hcase with ⟨rfl, ha, -⟩ | ⟨hby, hany, rfl, -⟩
  · exact ⟨_, place, types, true, rfl, htypes, htakes, .inl ⟨rfl, ha, rfl⟩⟩
  · obtain ⟨types', htypes', hm⟩ := bind_eq_ok.mp hm
    obtain ⟨takes', htakes', hm⟩ := bind_eq_ok.mp hm
    obtain ⟨v, hv, -⟩ := bind_eq_ok.mp hm
    obtain rfl := ok_inj htypes htypes'
    obtain rfl := ok_inj htakes htakes'
    exact ⟨v, place, types, takes, rfl, htypes, htakes, .inr ⟨hby, hany, rfl, hv⟩⟩

/-- Where an event is admitted and completes, it tries what it tries elsewhere. -/
lemma tries_again (h : c.Tries e s a u) (hadm : c.Admits e m.flow)
    (hm : c.execute e m = .ok s') : ∃ v, c.Tries e m a v := by
  obtain ⟨hk, h⟩ := h
  rw [execute, hk] at hm
  simp only [← tries_iff hk]
  cases hn : e.node with
  | function =>
    rw [hn] at h
    cases h
  | param p =>
    rw [hn] at h
    cases h
  | arm arm sel =>
    rw [hn] at h hm
    cases sel with
    | none => cases h
    | some sel =>
      have hguards : c.guards e = (c.scrutineePlace sel).toList := by simp only [guards, hk, hn]
      rw [Admits, hguards] at hadm
      have harm : c.ArmTries sel (c.touchable sel s) e.pos arm s a u := h
      -- The scrutinee was touched there and can be touched here.
      have hplace : c.touchable sel s = c.touchable sel m := by
        rw [touchable_eq hadm]
        obtain ⟨p, -, -, hp, -⟩ := harm
        obtain ⟨hp', -⟩ := Option.filter_eq_some_iff.mp hp
        rw [hp]
        exact hp'.symm
      rw [hplace] at harm
      exact armTries_again harm hm
  | stmt stmt =>
    rw [hn] at h hm
    cases stmt with
    | block b => cases h
    | foreign kind => cases h
    | declare name type value mutable loc =>
      obtain ⟨k, hk, -⟩ := bind_eq_ok.mp hm
      exact asks_again h hk
    | evaluate value loc =>
      obtain ⟨k, hk, -⟩ := map_eq_ok.mp hm
      exact asks_again h hk
    | ret value loc =>
      have hgive : c.giveBack e.pos value loc (m.begin loc) = .ok s' := hm
      rw [giveBack_eq] at hgive
      obtain ⟨r, hr, -⟩ := map_eq_ok.mp hgive
      obtain ⟨k, hk, -⟩ := bind_eq_ok.mp hr
      exact asks_again h hk
    | branch test t el loc | loop test body loc =>
      obtain ⟨k, hk, -⟩ := bind_eq_ok.mp hm
      exact asks_again h hk
    | assign target value loc =>
      obtain ⟨k, hk, -⟩ := bind_eq_ok.mp hm
      rcases h with h | ⟨-, -, p, hp, hstorage, -⟩
      · obtain ⟨v, hv⟩ := asks_again h hk
        exact ⟨v, .inl hv⟩
      · exact ⟨k.2, .inr ⟨k, hk, p, hp, hstorage, rfl⟩⟩
    | select scrutinee arms type loc =>
      have hscrut : Prod.snd <$> c.scrutinize e.pos loc scrutinee (m.begin loc) = .ok s' := hm
      simp only [NodeTries] at h ⊢
      cases hp : scrutinee.place? (c.meaning e.pos) with
      | some p =>
        rw [hp] at h
        exact ⟨_, h.1, rfl⟩
      | none =>
        rw [hp] at h
        rw [scrutinize_value hp] at hscrut
        obtain ⟨k, hk, -⟩ := map_eq_ok.mp hscrut
        exact asks_again h hk

/-! ### Along the visits of a walk -/

variable {once : Prop} {vs ws : List (Event × Session)}

variable (hc : c.tracksLoans = true)

include hc

/-- What changes of loans at certain positions keep, a trail through such positions keeps. -/
lemma Trail.keeps {Q : Int → Prop} {P : List Loan → Prop}
    (hP : ∀ {pos ls ls'}, Q pos → Loan.Booked ls → Loan.Change c.tree pos ls ls' → P ls → P ls')
    (h : c.Trail once vs s s') (hvs : ∀ v ∈ vs, Q v.1.pos) (hb : Loan.Booked s.loans)
    (hs : P s.loans) : Loan.Booked s'.loans ∧ P s'.loans := by
  induction vs generalizing s with
  | nil =>
    rw [h.loans]
    exact ⟨hb, hs⟩
  | cons v vs ih =>
    obtain ⟨e, u⟩ := v
    obtain ⟨hsame, m, hm, h⟩ := h
    rw [← hsame.loans] at hb hs
    obtain ⟨as, hdeals, -⟩ := deals_execute hc hb hm
    have hboth := hdeals.induct (P := fun ls => Loan.Booked ls ∧ P ls) hc
      (fun _ _ hch hls => ⟨hls.1.change hch, hP (hvs (e, u) mem_cons_self) hls.1 hch hls.2⟩)
      ⟨hb, hs⟩
    exact ih h (fun v hv => hvs v (mem_cons_of_mem _ hv)) hboth.1 hboth.2

variable (h : c.Trail once vs s s')

include h

lemma Trail.booked (hb : Loan.Booked s.loans) : Loan.Booked s'.loans :=
  (h.keeps (Q := fun _ => True) (P := fun _ => True) hc (fun _ _ _ _ => trivial)
    (fun _ _ => trivial) hb trivial).1

lemma Trail.findings : s.findings <+: s'.findings := by
  induction vs generalizing s with
  | nil => simp only [h.findings, prefix_rfl]
  | cons v vs ih =>
    obtain ⟨hsame, m, hm, h⟩ := h
    rw [← hsame.findings]
    exact ((performs hc _).grows hm).trans (ih h)

lemma Trail.replay (hb : Loan.Booked s.loans) (ho : once) : s'.replay = s.replay := by
  induction vs generalizing s with
  | nil => exact h.replay ho
  | cons v vs ih =>
    obtain ⟨hsame, m, hm, h⟩ := h
    rw [← hsame.loans] at hb
    obtain ⟨as, hdeals, -⟩ := deals_execute hc hb hm
    rw [ih h (hdeals.booked hc hb), hdeals.replay hc, hsame.replay ho]

/-- Whether a loan was granted at an access among some visits. -/
def Granted (c : Context) (vs : List (Event × Session)) (l : Loan) : Prop :=
  ∃ e u v span k, (e, u) ∈ vs ∧ e.pos = l.start ∧ c.Tries e u (.lend l.place l.kind) v ∧
    c.access e.pos span v (.lend l.place l.kind) = .ok k ∧ k.2.findings = v.findings

omit h in
/-- A loan was there before some steps at a position, or one of their accesses was granted it. -/
lemma Deals.origin {as : List (Access × Session)} (h : c.Deals pos as s s') (hl : l ∈ s'.loans) :
    (∃ k ∈ s.loans, k.Answers l.place l.kind l.start) ∨ ∃ v span k, pos = l.start ∧
      (Access.lend l.place l.kind, v) ∈ as ∧ c.access pos span v (.lend l.place l.kind) = .ok k ∧
      k.2.findings = v.findings := by
  induction h generalizing l with
  | idle h =>
    rw [h.loans] at hl
    exact .inl ⟨l, hl, rfl, rfl, rfl⟩
  | attach held b h =>
    obtain ⟨k, hk, rfl⟩ := mem_map.mp hl
    refine .inl ⟨k, hk, ?_⟩
    split <;> simp [Loan.Answers]
  | @access s a span k h =>
    rcases access_cases hc h with hidle | ⟨p, kind, rfl, -, -, hk⟩
    · rw [hidle.loans] at hl
      exact .inl ⟨l, hl, rfl, rfl, rfl⟩
    · rw [hk] at hl
      rcases mem_append.mp hl with hl | hl
      · exact .inl ⟨l, hl, rfl, rfl, rfl⟩
      · rw [mem_singleton.mp hl]
        refine .inr ⟨s, span, k, rfl, mem_singleton_self _, h, ?_⟩
        rw [hk]
        rfl
  | append h h' ih ih' =>
    rcases ih' hl with ⟨k, hk, hp, hkind, hstart⟩ | ⟨v, span, k, hpos, hv, hk⟩
    · rcases ih hk with ⟨k', hk', hans⟩ | ⟨v, span, r, hpos, hv, hr⟩
      · rw [hp, hkind, hstart] at hans
        exact .inl ⟨k', hk', hans⟩
      · rw [hp, hkind] at hv hr
        rw [hstart] at hpos
        exact .inr ⟨v, span, r, hpos, mem_append_left _ hv, hr⟩
    · exact .inr ⟨v, span, k, hpos, mem_append_right _ hv, hk⟩

/-- Every loan answers one from before, or has been granted on the way. -/
lemma Trail.origin (hb : Loan.Booked s.loans) (hl : l ∈ s'.loans) :
    (∃ k ∈ s.loans, k.Answers l.place l.kind l.start) ∨ c.Granted vs l := by
  induction vs generalizing s with
  | nil =>
    rw [h.loans] at hl
    exact .inl ⟨l, hl, rfl, rfl, rfl⟩
  | cons w vs ih =>
    obtain ⟨hsame, m, hm, h⟩ := h
    rw [← hsame.loans] at hb
    obtain ⟨as, hdeals, htries⟩ := deals_execute hc hb hm
    rcases ih h (hdeals.booked hc hb) with ⟨k, hk, hp, hkind, hstart⟩ | ⟨e, u, v, span, k, hv, hk⟩
    · rcases hdeals.origin hc hk with ⟨k', hk', hans⟩ | ⟨v, span, r, hpos, hv, hr⟩
      · rw [hp, hkind, hstart] at hans
        rw [hsame.loans] at hk'
        exact .inl ⟨k', hk', hans⟩
      · rw [hp, hkind] at hv hr
        rw [hstart] at hpos
        exact .inr ⟨_, _, v, span, r, mem_cons_self, hpos, (htries _ v).mpr hv, hr⟩
    · exact .inr ⟨e, u, v, span, k, mem_cons_of_mem _ hv, hk⟩

omit h

/-- A position that is quiet for an access stays quiet if nothing before it is visited later. -/
lemma quiet_after_visit (hb : Loan.Booked u.loans) (hm : c.execute e u = .ok m)
    (hrest : c.Trail once ws m s') (hws : ∀ w ∈ ws, e.pos ≤ w.1.pos) (htries : c.Tries e u a v)
    (hv : Loan.Quiet (c.Bars · a) e.pos v.loans) : Loan.Quiet (c.Bars · a) e.pos s'.loans := by
  obtain ⟨as, hdeals, hiff⟩ := deals_execute hc hb hm
  obtain ⟨xs, ys, span, k, hx, hk, hy⟩ := hdeals.split ((hiff a v).mp htries)
  have hstep : ∀ {pos ls ls'}, e.pos ≤ pos → Loan.Booked ls → Loan.Change c.tree pos ls ls' →
      Loan.Quiet (c.Bars · a) e.pos ls → Loan.Quiet (c.Bars · a) e.pos ls' :=
    fun hle hls hch hq => hq.change (fun l b since => bars_attach a c.tree l b since) hls hle hch
  have hend : c.Deals e.pos ((a, v) :: ys) v m := (Deals.access hk).append hy
  obtain ⟨hbm, hqm⟩ :=
    hend.induct (P := fun ls => Loan.Booked ls ∧ Loan.Quiet (c.Bars · a) e.pos ls)
    hc (fun _ _ hch hls => ⟨hls.1.change hch, hstep le_rfl hls.1 hch hls.2⟩) ⟨hx.booked hc hb, hv⟩
  exact (hrest.keeps (Q := (e.pos ≤ ·)) hc hstep hws hbm hqm).2

omit hc

lemma replay_initial (h : c.initial = .ok s) : s.replay = 0 := by
  obtain ⟨root, -, rfl⟩ := map_eq_ok.mp h
  unfold start
  rw [foldl_keeps Session.replay]
  exact fun _ _ => rfl

section Functions

variable {program : Program} {f : Function} {options : Options} {s₀ : Session}

/-- What a visit tries, it has carried out. -/
lemma exists_access_of_tries (hbuild : build program f options = .ok c) (h₀ : c.initial = .ok s₀)
    (hrun : c.run = .ok s) (hu : (e, u) ∈ f.skeleton.visits c s₀) (htries : c.Tries e u a v) :
    Loan.Booked v.loans ∧ ∃ span k, c.access e.pos span v a = .ok k ∧
      k.2.findings <+: s.findings := by
  obtain ⟨hc, hrep, rfl⟩ := build_fields hbuild
  obtain ⟨s₀', s₁, h₀', h₁, hexit⟩ := run_cases hrun
  obtain rfl := ok_inj h₀ h₀'
  have hb₀ : Loan.Booked s₀.loans := (initial_fields h₀).1 ▸ .nil
  have htrail := Skeleton.walk_trail hrep False c.function.skeleton (fun h => h.elim) h₁
  obtain ⟨before, after, hsplit⟩ := append_of_mem hu
  rw [hsplit] at htrail
  obtain ⟨hbefore, m, hm, hafter⟩ := htrail.split
  have hbu := hbefore.booked hc hb₀
  obtain ⟨as, hdeals, hiff⟩ := deals_execute hc hbu hm
  obtain ⟨xs, ys, span, k, hfirst, hk, hrest⟩ := hdeals.split ((hiff a v).mp htries)
  obtain ⟨scope, -, hexit⟩ := bind_eq_ok.mp hexit
  exact ⟨hfirst.booked hc hbu, span, k, hk,
    (hrest.findings hc).trans ((hafter.findings hc).trans (idle_exitScope hexit).findings)⟩

/-- In a function without loops, or without findings, an access that was accepted is not forbidden
by the loans as they are in the end. -/
lemma quiet_of_accepted (hbuild : build program f options = .ok c) (hrun : c.run = .ok s)
    (hcase : (∀ pos test body loc, Event.test pos test body loc ∉ f.events) ∨ s.findings = [])
    (h₀ : c.initial = .ok s₀) (hu : (e, u) ∈ f.skeleton.visits c s₀) (htries : c.Tries e u a v)
    (hk : c.access e.pos span v a = .ok k) (hkf : k.2.findings = v.findings) :
    Loan.Quiet (c.Bars · a) e.pos s.loans := by
  obtain ⟨hc, hr, rfl⟩ := build_fields hbuild
  obtain ⟨s₀', s₁, h₀', h₁, hexit⟩ := run_cases hrun
  obtain rfl := ok_inj h₀ h₀'
  obtain ⟨hloans₀, hret, -⟩ := initial_fields h₀
  have hb₀ : Loan.Booked s₀.loans := hloans₀ ▸ .nil
  obtain ⟨scope, -, hexit⟩ := bind_eq_ok.mp hexit
  have hidle := idle_exitScope hexit
  rw [hidle.loans]
  obtain ⟨hi, hspans⟩ := c.function.spans_skeleton
  rcases hcase with honce | hnone
  · have honce' : ∀ pos test body loc,
        Event.test pos test body loc ∉ c.function.skeleton.events := by
      intro pos test body loc he
      rw [Function.events_skeleton] at he
      exact honce pos test body loc (by simp [Function.events, he])
    have htrail := Skeleton.walk_trail hr True c.function.skeleton (fun _ => honce') h₁
    obtain ⟨before, after, hsplit⟩ := append_of_mem hu
    rw [hsplit] at htrail
    obtain ⟨hbefore, m, hm, hafter⟩ := htrail.split
    have hbu := hbefore.booked hc hb₀
    obtain ⟨as, hdeals, hiff⟩ := deals_execute hc hbu hm
    obtain ⟨xs, -, -, -, hx, -, -⟩ := hdeals.split ((hiff a v).mp htries)
    have hreplay : v.replay = 0 := by
      rw [hx.replay hc, hbefore.replay hc hb₀ trivial, replay_initial h₀]
    have hquiet := quiet_of_access hc (hx.booked hc hbu) hk ⟨.inl hreplay, hkf⟩
    exact quiet_after_visit hc hbu hm hafter
      (Skeleton.visits_ordered hc hr hspans honce' h₁ hret hsplit) htries hquiet
  · -- The last visit of the event tries the same access, and there are no findings.
    have hnone₁ : s₁.findings = [] := prefix_nil.mp (hnone ▸ hidle.findings)
    have hclean : s₁.Clean := .of_findings_eq_nil hnone₁
    obtain ⟨before, u', after, hsplit, hpos⟩ :=
      Skeleton.exists_last_visit hc hr hspans h₁ hret hu
    have htrail := Skeleton.walk_trail hr False c.function.skeleton (fun h => h.elim) h₁
    rw [hsplit] at htrail
    obtain ⟨hbefore, m, hm, hafter⟩ := htrail.split
    have hbu := hbefore.booked hc hb₀
    obtain ⟨hguarded, hguards⟩ :=
      Stmt.guarded_skeletonAll c c.function.bodyStart c.function.body.stmts
    have hclears :=
      Skeleton.clears_of_walk hc hr _ hguarded h₁ (Skeleton.admits_nil hguards _) hclean
    have hu' : (e, u') ∈ c.function.skeleton.visits c s₀ := by
      rw [hsplit]
      exact mem_append_right _ mem_cons_self
    obtain ⟨v', htries'⟩ := tries_again htries (hclears.admits_visits hr (e, u') hu') hm
    obtain ⟨hbooked, span', k', hk', hkept⟩ := exists_access_of_tries hbuild h₀ hrun hu' htries'
    have hk'none : k'.2.findings = [] := prefix_nil.mp (hnone ▸ hkept)
    have hv'none : v'.findings = [] :=
      prefix_nil.mp (hk'none ▸ (Deals.access hk').findings hc)
    have hquiet := quiet_of_access hc hbooked hk' ⟨.inr hk'none, hk'none.trans hv'none.symm⟩
    exact quiet_after_visit hc hbu hm hafter hpos htries' hquiet

end Functions

/-- In a function without loops, and in one whose walk has no findings, what was decided about loans
agrees with the windows that they have in the end. (1) No loan is live where another one starts that
does not start before it, if the places overlap and one of the two is exclusive. (2) No loan that
started earlier and forbids an access is live where that access was made without a finding. -/
theorem decisions_agree_with_final_windows {program : Program} {f : Function} {options : Options}
    {c : Context} {s : Session} (hbuild : build program f options = .ok c) (hrun : c.run = .ok s)
    (hcase : (∀ pos test body loc, Event.test pos test body loc ∉ f.events) ∨ s.findings = []) :
    (∀ A ∈ s.loans, ∀ B ∈ s.loans, A ≠ B → A.place.overlaps B.place = true →
      (A.kind = .exclusive ∨ B.kind = .exclusive) → A.start ≤ B.start →
      A.activeAt B.start = false) ∧
    ∃ s₀, c.initial = .ok s₀ ∧ ∀ e u, (e, u) ∈ f.skeleton.visits c s₀ →
      ∀ a v span k, c.Tries e u a v → c.access e.pos span v a = .ok k →
        k.2.findings = v.findings →
        ∀ A ∈ s.loans, c.Bars A a → A.start < e.pos → A.activeAt e.pos = false := by
  obtain ⟨hc, hr, hf⟩ := build_fields hbuild
  obtain ⟨s₀, s₁, h₀, h₁, hexit⟩ := run_cases hrun
  have hb₀ : Loan.Booked s₀.loans := (initial_fields h₀).1 ▸ .nil
  have htrail := Skeleton.walk_trail hr False c.function.skeleton (fun h => h.elim) h₁
  obtain ⟨scope, -, hexit⟩ := bind_eq_ok.mp hexit
  have hloans : s.loans = s₁.loans := (idle_exitScope hexit).loans
  refine ⟨fun A hA B hB hne hov hkind hle => ?_, s₀, h₀, fun e u hu a v span k htries hk hkf => ?_⟩
  · have hex : A.Excludes B.place B.kind := ⟨hov, hkind.symm⟩
    rcases hle.lt_or_eq with hlt | heq
    · -- The request for the later loan was accepted.
      rw [hloans] at hB
      rcases htrail.origin hc hb₀ hB with ⟨l, hl, -⟩ | ⟨e, u, v, span, k, hu, hpos, htries, hk, hkf⟩
      · rw [(initial_fields h₀).1] at hl
        cases hl
      · rw [hf] at hu
        have hquiet := quiet_of_accepted hbuild hrun hcase h₀ hu htries hk hkf
        rw [← hpos] at hlt ⊢
        exact hquiet A hA hex hlt
    · have hb : Loan.Booked s.loans := hloans ▸ htrail.booked hc hb₀
      exact (hb.not_excludes hA hB hne heq hex).elim
  · exact quiet_of_accepted hbuild hrun hcase h₀ hu htries hk hkf

end Context

/-- Borrows a text, copies the reference in a loop, and then borrows the text exclusively. -/
def Function.relay : Function where
  name := "relay"
  params := [⟨"c", some ⟨2⟩, false, .unknown⟩, ⟨"x", some ⟨1⟩, true, .unknown⟩]
  body := .mk [.declare "r" none (.borrow (.var "x" .unknown) false .unknown) false .unknown,
    .loop (.var "c" .unknown)
      (.mk [.declare "y" none (.var "r" .unknown) false .unknown] .unknown) .unknown,
    .declare "m" none (.borrow (.var "x" .unknown) true .unknown) false .unknown] .unknown

namespace Context

/-- The copies keep the first loan alive in the loop, but not where the second one starts. -/
theorem decisions_agree_with_final_windows_relay : ∃ c s A B,
    build { types := .texts } .relay {} = .ok c ∧ c.run = .ok s ∧ s.findings = [] ∧
    A ∈ s.loans ∧ B ∈ s.loans ∧ A ≠ B ∧ A.place.overlaps B.place = true ∧ B.kind = .exclusive ∧
    A.start + 3 < A.stop ∧ A.start ≤ B.start ∧ A.activeAt B.start = false := by
  have hok : ((build { types := .texts } .relay {} >>= run).toOption.any fun s =>
      decide (s.findings = [] ∧ ∃ A ∈ s.loans, ∃ B ∈ s.loans, A ≠ B ∧
        A.place.overlaps B.place = true ∧ B.kind = .exclusive ∧ A.start + 3 < A.stop ∧
        A.start ≤ B.start)) = true := by decide +kernel
  obtain ⟨s, hs, htest⟩ := Fault.exists_ok hok
  obtain ⟨c, hbuild, hrun⟩ := bind_eq_ok.mp hs
  obtain ⟨hnone, A, hA, B, hB, hne, hov, hkind, hlong, hle⟩ := of_decide_eq_true htest
  have hapart := (decisions_agree_with_final_windows hbuild hrun (.inr hnone)).1
  exact ⟨c, s, A, B, hbuild, hrun, hnone, hA, hB, hne, hov, hkind, hlong, hle,
    hapart A hA B hB hne hov (.inr hkind) hle⟩

end Context

end Ownership
