import Ownership.Checker.Walk
import Mathlib.Tactic.Common

/-!
# Small changes of a session

Most of what a rule does to a session touches one part of it. The lemmas here say which parts stay
the same. A change is *mild* if it leaves the ownership state alone, refuses no use and lends
nothing new; reports of other kinds, destructions and new holders of old loans are mild.
-/

namespace Ownership

open List

variable {α β : Type} {x : Except Fault α} {r : β}

lemma ok_inj {ε : Type} {x : Except ε α} {a b : α} (ha : x = .ok a) (hb : x = .ok b) : a = b :=
  Except.ok.inj (ha.symm.trans hb)

lemma bind_eq_ok {f : α → Except Fault β} : (x >>= f) = .ok r ↔ ∃ a, x = .ok a ∧ f a = .ok r := by
  cases x with
  | error e => simp [bind, Except.bind]
  | ok a => simp [bind, Except.bind]

lemma map_eq_ok {f : α → β} : f <$> x = .ok r ↔ ∃ a, x = .ok a ∧ f a = r := by
  cases x with
  | error e => simp [Functor.map, Except.map]
  | ok a => simp [Functor.map, Except.map]

lemma Fault.exists_ok {test : α → Bool} (h : x.toOption.any test = true) :
    ∃ a, x = .ok a ∧ test a = true := by
  cases x with
  | error f => cases h
  | ok a => exact ⟨a, rfl, h⟩

lemma Fault.eq_ok_of_toOption {a : α} (h : x.toOption = some a) : x = .ok a := by
  cases x with
  | error f => cases h
  | ok b => exact congrArg Except.ok (Option.some.inj h)

lemma foldl_keeps {γ : Type} {g : α → β → α} (φ : α → γ) (h : ∀ a b, φ (g a b) = φ a) (l : List β)
    (a : α) : φ (l.foldl g a) = φ a := by
  induction l generalizing a with
  | nil => rfl
  | cons b l ih => rw [foldl_cons, ih, h]

/-! ### Refusals of uses -/

namespace Violation

/-- Whether a violation is the refusal of a use: of a place that was moved, or that has no value. -/
def deniesUse : Violation → Bool
  | useAfterMove .. | useOfUninitialized .. | borrowOfMoved .. => true
  | _ => false

lemma deniesUse_iff_code (v : Violation) : v.deniesUse = true ↔
    v.code ∈ ["E_USE_AFTER_MOVE", "E_USE_UNINIT", "E_BORROW_OF_MOVED"] := by
  cases v <;> simp [deniesUse, code]

lemma deniesUse_congr {v w : Violation} (h : v.code = w.code) : v.deniesUse = w.deniesUse := by
  rw [Bool.eq_iff_iff, deniesUse_iff_code, deniesUse_iff_code, h]

end Violation

lemma Finding.deniesUse_of_repeats {f g : Finding} (h : f.repeats g = true) :
    f.violation.deniesUse = g.violation.deniesUse := by
  simp only [Finding.repeats, Bool.and_eq_true, decide_eq_true_eq] at h
  exact Violation.deniesUse_congr h.1.1

namespace Session

variable {s s' m : Session}

def Clean (s : Session) : Prop := ∀ f ∈ s.findings, f.violation.deniesUse = false

instance (s : Session) : Decidable s.Clean :=
  inferInstanceAs (Decidable (∀ f ∈ s.findings, f.violation.deniesUse = false))

lemma Clean.of_findings_eq_nil (h : s.findings = []) : s.Clean := by
  simp [Clean, h]

lemma Clean.of_prefix (h : s.findings <+: s'.findings) (hs : s'.Clean) : s.Clean :=
  fun f hf => hs f (h.subset hf)

/-! ### Parts that stay the same -/

section Parts

variable (s : Session) (f : Finding) (pos : Int)

/-- A report changes the findings only. -/
lemma report_eq : s.report f = { s with findings := (s.report f).findings } := by
  unfold report
  split <;> rfl

@[simp] lemma flow_report : (s.report f).flow = s.flow := (congrArg Session.flow (s.report_eq f) :)

@[simp] lemma loans_report : (s.report f).loans = s.loans :=
  (congrArg Session.loans (s.report_eq f) :)

@[simp] lemma replay_report : (s.report f).replay = s.replay :=
  (congrArg Session.replay (s.report_eq f) :)

lemma findings_report : s.findings <+: (s.report f).findings := by
  unfold report
  split
  · exact prefix_refl _
  · exact prefix_append _ _

lemma exists_repeats_report : ∃ g ∈ (s.report f).findings, f.repeats g = true := by
  unfold report
  split
  · rename_i h
    rw [Bool.and_eq_true, any_eq_true] at h
    exact h.2
  · exact ⟨f, by simp, by simp [Finding.repeats]⟩

lemma clean_report : (s.report f).Clean ↔ s.Clean ∧ f.violation.deniesUse = false := by
  unfold report
  split
  · rename_i h
    rw [Bool.and_eq_true, any_eq_true] at h
    obtain ⟨-, g, hg, hrep⟩ := h
    exact ⟨fun hs => ⟨hs, (Finding.deniesUse_of_repeats hrep).trans (hs g hg)⟩, fun hs => hs.1⟩
  · simp [Clean, mem_append, or_imp, forall_and]

/-- The destruction of a binding changes the record of destructions only. -/
lemma drop_eq (b : Binding) : drop pos s b = { s with drops := (drop pos s b).drops } := by
  unfold drop recordDrop
  split <;> (try split) <;> rfl

lemma flow_drop (b : Binding) : (drop pos s b).flow = s.flow :=
  (congrArg Session.flow (drop_eq s pos b) :)

lemma replay_drop (b : Binding) : (drop pos s b).replay = s.replay :=
  (congrArg Session.replay (drop_eq s pos b) :)

variable (tree : ScopeTree) (scope : Nat)

lemma destroy_eq : { s.destroy tree scope pos with drops := [] } = { s with drops := [] } :=
  foldl_keeps (fun s : Session => { s with drops := [] }) (fun s b => by rw [drop_eq]) _ s

@[simp] lemma flow_destroy : (s.destroy tree scope pos).flow = s.flow :=
  (congrArg Session.flow (s.destroy_eq pos tree scope) :)

@[simp] lemma loans_destroy : (s.destroy tree scope pos).loans = s.loans :=
  (congrArg Session.loans (s.destroy_eq pos tree scope) :)

@[simp] lemma findings_destroy : (s.destroy tree scope pos).findings = s.findings :=
  (congrArg Session.findings (s.destroy_eq pos tree scope) :)

@[simp] lemma replay_destroy : (s.destroy tree scope pos).replay = s.replay :=
  (congrArg Session.replay (s.destroy_eq pos tree scope) :)

end Parts

/-! ### Mild changes -/

/-- Whether a change leaves the ownership state alone, refuses no use and borrows no new place. -/
structure Mild (s s' : Session) : Prop where
  flow : s'.flow = s.flow
  findings : s.findings <+: s'.findings
  clean : s.Clean → s'.Clean
  places : ∀ l ∈ s'.loans, ∃ k ∈ s.loans, k.place = l.place

lemma Mild.of_eq (hflow : s'.flow = s.flow) (hfind : s'.findings = s.findings)
    (hloans : s'.loans = s.loans) : s.Mild s' where
  flow := hflow
  findings := hfind ▸ prefix_refl _
  clean hs := by rwa [Clean, hfind]
  places l hl := ⟨l, by rwa [← hloans], rfl⟩

lemma Mild.refl (s : Session) : s.Mild s := .of_eq rfl rfl rfl

lemma Mild.trans (h : s.Mild m) (h' : m.Mild s') : s.Mild s' where
  flow := h'.flow.trans h.flow
  findings := h.findings.trans h'.findings
  clean hs := h'.clean (h.clean hs)
  places l hl := by
    obtain ⟨k, hk, hkl⟩ := h'.places l hl
    obtain ⟨j, hj, hjk⟩ := h.places k hk
    exact ⟨j, hj, hjk.trans hkl⟩

/-- Whether a mild change touches no loan. -/
structure Still (s s' : Session) : Prop where
  flow : s'.flow = s.flow
  findings : s.findings <+: s'.findings
  clean : s.Clean → s'.Clean
  loans : s'.loans = s.loans
  replay : s'.replay = s.replay

lemma Still.mild (h : s.Still s') : s.Mild s' where
  flow := h.flow
  findings := h.findings
  clean := h.clean
  places l hl := ⟨l, by rwa [← h.loans], rfl⟩

lemma Still.refl (s : Session) : s.Still s := ⟨rfl, prefix_refl _, id, rfl, rfl⟩

lemma Still.trans (h : s.Still m) (h' : m.Still s') : s.Still s' where
  flow := h'.flow.trans h.flow
  findings := h.findings.trans h'.findings
  clean hs := h'.clean (h.clean hs)
  loans := h'.loans.trans h.loans
  replay := h'.replay.trans h.replay

lemma Still.report {f : Finding} (h : f.violation.deniesUse = false) : s.Still (s.report f) where
  flow := flow_report s f
  findings := findings_report s f
  clean hs := (clean_report s f).mpr ⟨hs, h⟩
  loans := loans_report s f
  replay := replay_report s f

/-- Whether at most one finding is reported, one that denies no use, and nothing else changes. -/
inductive Notes (s : Session) (pos : Int) : Session → Prop
  | silent : Notes s pos s
  | report {f : Finding} (hpos : f.pos = pos) (hf : f.violation.deniesUse = false) :
    Notes s pos (s.report f)

lemma Notes.still {pos : Int} (h : s.Notes pos s') : s.Still s' := by
  cases h with
  | silent => exact .refl s
  | report _ hf => exact .report hf

lemma still_destroy (s : Session) (tree : ScopeTree) (scope : Nat) (pos : Int) :
    s.Still (s.destroy tree scope pos) where
  flow := flow_destroy ..
  findings := (findings_destroy s pos tree scope).symm ▸ prefix_refl _
  clean hs := by rwa [Clean, findings_destroy]
  loans := loans_destroy ..
  replay := replay_destroy ..

end Session

@[simp] lemma Loan.place_attach (t : ScopeTree) (b : Binding) (since : Int) (l : Loan) :
    (l.attach t b since).place = l.place := by
  unfold Loan.attach
  split <;> rfl

lemma Session.Mild.attach (s : Session) (tree : ScopeTree) (held : List Nat) (b : Binding)
    (since : Int) : s.Mild (s.attach tree held b since) where
  flow := rfl
  findings := prefix_refl _
  clean hs := hs
  places l hl := by
    simp only [Session.attach, mem_map] at hl
    obtain ⟨k, hk, rfl⟩ := hl
    refine ⟨k, hk, ?_⟩
    split <;> simp

namespace Context

variable {c : Context} {s s' : Session} {p : Place} {pos : Int} {span : Span} {viaReturn : Bool}
  {scope : Scope} {kind : LoanKind}

/-! ### Rules that touch no loan -/

lemma notes_noteRead : s.Notes pos (c.noteRead p pos span s) := by
  unfold noteRead
  split
  · split
    · exact .report rfl rfl
    · exact .silent
  · exact .silent

lemma notes_noteMove : s.Notes pos (c.noteMove p pos span s) := by
  unfold noteMove
  split
  · split
    · exact .report rfl rfl
    · exact .silent
  · exact .silent

lemma notes_noteMutability : s.Notes pos (c.noteMutability p pos span s) := by
  unfold noteMutability
  split
  · exact .report rfl rfl
  · exact .silent

lemma notes_noteWrite : s.Notes pos (c.noteWrite p pos span s) := by
  unfold noteWrite
  split
  · split
    · exact .report rfl rfl
    · exact .silent
  · exact .silent

lemma flow_read : (c.read p pos span s).flow = s.flow := by
  unfold read
  split
  · exact Session.flow_report _ _
  · exact notes_noteRead.still.flow

lemma still_reportDangling {l : Loan} : s.Still (c.reportDangling l pos span viaReturn s) := by
  unfold reportDangling
  refine .trans ?_ (.report rfl)
  exact ⟨rfl, prefix_refl _, id, rfl, rfl⟩

/-- Whether loans are reported as dangling at a position, one after another. -/
inductive Dangled (c : Context) (pos : Int) (viaReturn : Bool) : Session → Session → Prop
  | refl (s : Session) : Dangled c pos viaReturn s s
  | report {s s' : Session} (l : Loan) (span : Span)
      (h : Dangled c pos viaReturn (c.reportDangling l pos span viaReturn s) s') :
      Dangled c pos viaReturn s s'

lemma dangled_escape {ids : List Nat} (h : c.escape pos span ids s = .ok s') :
    c.Dangled pos true s s' := by
  induction ids generalizing s with
  | nil =>
    obtain rfl := Except.ok.inj h
    exact .refl s
  | cons id rest ih =>
    unfold escape at h
    split at h
    · exact ih h
    · obtain ⟨r, -, h⟩ := bind_eq_ok.mp h
      cases r with
      | some _ => exact ih h
      | none => exact .report _ span (ih h)

lemma dangled_checkDangling {ls : List Loan} (h : c.checkDangling scope ls s = .ok s') :
    c.Dangled scope.stop false s s' := by
  induction ls generalizing s with
  | nil =>
    obtain rfl := Except.ok.inj h
    exact .refl s
  | cons l rest ih =>
    unfold checkDangling at h
    obtain ⟨dangles, -, h⟩ := bind_eq_ok.mp h
    cases dangles with
    | true => exact .report l l.span (ih h)
    | false => exact ih h

lemma Dangled.still (h : c.Dangled pos viaReturn s s') : s.Still s' := by
  induction h with
  | refl s => exact .refl s
  | report _ _ _ ih => exact still_reportDangling.trans ih

/-! ### Borrows -/

lemma lend_cases (hc : c.tracksLoans = true) {r : List Nat × Session}
    (h : c.lend p kind pos span s = .ok r) :
    (∃ ref, s.flow.refusal? p = some ref ∧
      r = ([], s.report (s.flow.borrowFinding p pos span ref))) ∨
    ∃ behind, s.flow.refusal? p = none ∧ c.typing.refPrefix? p = .ok behind ∧
      ((∃ f : Finding, f.violation.deniesUse = false ∧ r = ([], s.report f)) ∨
        (s.conflict? p kind pos ((s.sameLoan? p kind pos).map (·.id)) = none ∧
          r = c.grantLoan p kind pos span behind s)) := by
  unfold lend at h
  rw [hc, Bool.not_true, if_neg Bool.false_ne_true] at h
  split at h
  · rename_i ref href
    exact .inl ⟨ref, href, (Except.ok.inj h).symm⟩
  · rename_i hnone
    obtain ⟨behind, hp, h⟩ := bind_eq_ok.mp h
    refine .inr ⟨behind, hnone, hp, ?_⟩
    split at h
    · exact .inl ⟨_, rfl, (Except.ok.inj h).symm⟩
    · split at h
      · exact .inl ⟨_, rfl, (Except.ok.inj h).symm⟩
      · rename_i hconf
        exact .inr ⟨hconf, (Except.ok.inj h).symm⟩

lemma lend_completes (hc : c.tracksLoans = true) {behind : Option Place}
    (hnone : s.flow.refusal? p = none) (hp : c.typing.refPrefix? p = .ok behind) :
    ∃ r, c.lend p kind pos span s = .ok r := by
  unfold lend
  rw [hc, Bool.not_true, if_neg Bool.false_ne_true, hnone, hp]
  simp only [bind, Except.bind]
  split
  · exact ⟨_, rfl⟩
  · split <;> exact ⟨_, rfl⟩

lemma snd_grantLoan (c : Context) (p : Place) (kind : LoanKind) (pos : Int) (span : Span)
    (behind : Option Place) (s : Session) :
    (c.grantLoan p kind pos span behind s).2 = s ∨
      (c.grantLoan p kind pos span behind s).2 = s.grant p kind pos span := by
  unfold grantLoan
  cases s.sameLoan? p kind pos with
  | some l => exact .inl rfl
  | none => exact .inr rfl

/-! ### Loans of places with known types -/

/-- Whether it is known for each loan if its place lies behind a reference. -/
def LoansTyped (c : Context) (s : Session) : Prop :=
  ∀ l ∈ s.loans, ∃ r, c.typing.refPrefix? l.place = .ok r

lemma LoansTyped.of_mild (h : c.LoansTyped s) (hm : s.Mild s') : c.LoansTyped s' := by
  intro l hl
  obtain ⟨k, hk, hkl⟩ := hm.places l hl
  exact hkl ▸ h k hk

lemma escape_completes (ids : List Nat) (h : c.LoansTyped s) :
    ∃ s', c.escape pos span ids s = .ok s' := by
  induction ids generalizing s with
  | nil => exact ⟨s, rfl⟩
  | cons id rest ih =>
    unfold escape
    split
    · exact ih h
    · rename_i l hl
      obtain ⟨r, hr⟩ := h l (mem_of_getElem? hl)
      rw [hr]
      cases r with
      | some _ => exact ih h
      | none => exact ih (h.of_mild still_reportDangling.mild)

/-- The check for dangling loans completes if their places have types. -/
lemma checkDangling_completes (ls : List Loan)
    (h : ∀ l ∈ ls, ∃ r, c.typing.refPrefix? l.place = .ok r) :
    ∃ s', c.checkDangling scope ls s = .ok s' := by
  induction ls generalizing s with
  | nil => exact ⟨s, rfl⟩
  | cons l rest ih =>
    have hrest : ∀ k ∈ rest, ∃ r, c.typing.refPrefix? k.place = .ok r :=
      fun k hk => h k (mem_cons_of_mem _ hk)
    obtain ⟨dangles, hd⟩ : ∃ b, c.danglesAt scope s.dangling l = .ok b := by
      obtain ⟨r, hr⟩ := h l mem_cons_self
      unfold danglesAt
      split
      · exact ⟨false, rfl⟩
      · rw [hr]
        cases r with
        | some _ => exact ⟨false, rfl⟩
        | none => exact ⟨_, rfl⟩
    unfold checkDangling
    rw [hd]
    cases dangles with
    | true => exact ih hrest
    | false => exact ih hrest

/-- A context is built from the scopes of its function and the types of the bindings in them. -/
lemma build_cases {program : Program} {f : Function} {options : Options}
    (h : build program f options = .ok c) : ∃ tree typing, ScopeTree.ofFunction f = .ok tree ∧
      Typing.ofTree program tree = .ok typing ∧
      c = { program, function := f, tree, typing, options } := by
  obtain ⟨tree, htree, h⟩ := bind_eq_ok.mp h
  obtain ⟨typing, htyping, h⟩ := bind_eq_ok.mp h
  exact ⟨tree, typing, htree, htyping, (Except.ok.inj h).symm⟩

end Context

end Ownership
