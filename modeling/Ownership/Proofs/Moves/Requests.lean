import Ownership.Proofs.Control.Execute
import Ownership.Proofs.Moves.Rule

/-!
# Accesses and requests as deeds

Every access checks the state of its place first and then does one deed. The requests of an
expression are accesses one after another, so their deeds are known without any session.
-/

namespace Ownership

namespace Context

def Only (a : Access) : Session → Access → Session → Prop := fun s b u => b = a ∧ u = s

/-- How a session goes on after a deed that was allowed. -/
structure Grants (c : Context) (s : Session) (d : Deed) (s' : Session) : Prop where
  findings : s.findings <+: s'.findings
  clean : s.Clean → s'.Clean
  returned : s'.flow.returned = s.flow.returned
  loansTyped : c.LoansTyped s → c.LoansTyped s'
  leaves : s.Leaves [d] s'

section

variable {c : Context} {s s' : Session} {a : Access} {p : Place} {pos : Int} {span : Span}
  {d : Deed} {f : Flow} {kind : LoanKind}

lemma Grants.of_mild (h : s.Mild s') (hd : ∀ q, d.effect q = none) : c.Grants s d s' where
  findings := h.findings
  clean := h.clean
  returned := by rw [h.flow]
  loansTyped ht := ht.of_mild h
  leaves q := by rw [h.flow, Deed.after_cons, Deed.next, hd]; rfl

lemma Grants.of_withFlow (h : s.Mild s') (hret : f.returned = s.flow.returned)
    (hf : ∀ q, f.stateOf q = d.next q (s.flow.stateOf q)) : c.Grants s d (s'.withFlow f) where
  findings := h.findings
  clean := h.clean
  returned := hret
  loansTyped ht := (ht.of_mild h : c.LoansTyped s')
  leaves := hf

/-- A rule that makes one access: it reports a refusal when the access does not fit, and else does
the deed. -/
lemma Does.of_check {rule : Session → Except Fault (List Nat × Session)} {T : Prop}
    (hrefuse : ∀ s, ¬a.Fits s.flow →
      ∃ f : Finding, f.violation.deniesUse = true ∧ rule s = .ok ([], s.report f))
    (hgrant : ∀ s r, a.Fits s.flow → rule s = .ok r → T ∧ c.Grants s (.access a) r.2)
    (hcomp : ∀ t, T → a.Fits t.flow → ∃ r, rule t = .ok r) :
    c.Does Prod.snd rule [.access a] T (Only a) := by
  have hfit : ∀ {s : Session}, s.Passes [.access a] → a.Fits s.flow := Session.passes_access.mp
  -- The session after a refusal differs from the one before in a report only.
  have hno : ∀ {s r}, ¬a.Fits s.flow → rule s = .ok r → ∃ f : Finding,
      f.violation.deniesUse = true ∧ r.2 = s.report f := by
    intro s r hn hr
    obtain ⟨f, hf, hok⟩ := hrefuse s hn
    rw [hok] at hr
    exact ⟨f, hf, by rw [← Except.ok.inj hr]⟩
  constructor
  · intro s r hr
    by_cases h : a.Fits s.flow
    · exact (hgrant s r h hr).2.findings
    · obtain ⟨f, -, he⟩ := hno h hr
      rw [he]
      exact Session.findings_report s f
  · intro s r hr
    by_cases h : a.Fits s.flow
    · exact (hgrant s r h hr).2.returned
    · obtain ⟨f, -, he⟩ := hno h hr
      rw [he, Session.flow_report]
  · intro s r hr ht
    by_cases h : a.Fits s.flow
    · exact (hgrant s r h hr).2.loansTyped ht
    · obtain ⟨f, -, he⟩ := hno h hr
      rw [he, LoansTyped, Session.loans_report]
      exact ht
  · intro s r hr hp
    exact (hgrant s r (hfit hp) hr).2.leaves
  · intro s r hr hs hp
    exact (hgrant s r (hfit hp) hr).2.clean hs
  · intro s r hr hs
    by_cases h : a.Fits s.flow
    · exact ⟨(hgrant s r h hr).1, Session.passes_access.mpr h⟩
    · obtain ⟨f, hf, he⟩ := hno h hr
      rw [he, Session.clean_report, hf] at hs
      exact absurd hs.2 (by decide)
  · intro t hT _ hp
    exact hcomp t hT (hfit hp)
  · rintro t b u ⟨rfl, rfl⟩ hp
    exact hfit hp
  · intro s r hr hs hn
    have h : ¬a.Fits s.flow := fun h => hn ((hgrant s r h hr).2.clean hs)
    rw [Access.fits_iff, not_forall] at h
    obtain ⟨q, hq⟩ := h
    refine ⟨q, fun t _ _ heq => ⟨a, t, ⟨rfl, rfl⟩, ?_⟩⟩
    intro hfits
    exact hq (heq ▸ Access.fits_iff.mp hfits q)

/-! ### The four accesses -/

lemma refusal_of_not_usable (h : ¬f.Usable p) : ∃ r, f.refusal? p = some r :=
  Option.ne_none_iff_exists'.mp fun hn => h (Flow.refusal?_eq_none_iff.mp hn)

lemma deniesUse_useFinding (f : Flow) (r : Refusal) :
    (f.useFinding p pos span r).violation.deniesUse = true := by
  cases r <;> rfl

lemma deniesUse_borrowFinding (f : Flow) (r : Refusal) :
    (f.borrowFinding p pos span r).violation.deniesUse = true := by
  cases r <;> rfl

lemma does_read : c.Does Prod.snd (fun s => c.access pos span s (.read p)) [.access (.read p)] True
    (Only (.read p)) := by
  apply Does.of_check
  · intro s hn
    obtain ⟨r, hr⟩ := refusal_of_not_usable hn
    refine ⟨s.flow.useFinding p pos span r, deniesUse_useFinding s.flow r, ?_⟩
    simp only [access, read, hr]
  · intro s r hfit hr
    have hnone : s.flow.refusal? p = none := Flow.refusal?_eq_none_iff.mpr hfit
    simp only [access, read, hnone, Except.ok.injEq] at hr
    subst hr
    exact ⟨trivial, .of_mild notes_noteRead.still.mild fun _ => rfl⟩
  · intro t _ _
    exact ⟨_, rfl⟩

lemma does_move : c.Does Prod.snd (fun s => c.access pos span s (.move p)) [.access (.move p)] True
    (Only (.move p)) := by
  apply Does.of_check
  · intro s hn
    obtain ⟨r, hr⟩ := refusal_of_not_usable hn
    refine ⟨s.flow.useFinding p pos span r, deniesUse_useFinding s.flow r, ?_⟩
    simp only [access, move, hr]
  · intro s r hfit hr
    have hnone : s.flow.refusal? p = none := Flow.refusal?_eq_none_iff.mpr hfit
    simp only [access, move, hnone, Except.ok.injEq] at hr
    subst hr
    have hm : s.Mild (c.noteMove p pos span s) := notes_noteMove.still.mild
    refine ⟨trivial, .of_withFlow hm (by rw [hm.flow]; rfl) fun q => ?_⟩
    rw [hm.flow, Flow.stateOf_moveOut, Deed.next, Deed.effect]
    by_cases hq : q = p
    · simp [hq]
    · by_cases hc : p.covers q = true <;> simp [hq, hc]
  · intro t _ _
    exact ⟨_, rfl⟩

lemma does_write : c.Does Prod.snd (fun s => c.access pos span s (.write p)) [.access (.write p)]
    True (Only (.write p)) := by
  apply Does.of_check
  · intro s hn
    obtain ⟨r, hr⟩ : ∃ r, s.flow.writeRefusal? p = some r :=
      Option.ne_none_iff_exists'.mp fun h => hn (Flow.writeRefusal?_eq_none_iff.mp h)
    exact ⟨s.flow.useFinding p pos span r, deniesUse_useFinding s.flow r,
      by simp only [access, write, hr]⟩
  · intro s r hfit hr
    have hnone : s.flow.writeRefusal? p = none := Flow.writeRefusal?_eq_none_iff.mpr hfit
    simp only [access, write, hnone, Except.ok.injEq] at hr
    subst hr
    have hm : s.Mild (c.noteWrite p pos span (c.noteMutability p pos span s)) :=
      (notes_noteMutability.still.trans notes_noteWrite.still).mild
    refine ⟨trivial, .of_withFlow hm (by rw [hm.flow]; rfl) fun q => ?_⟩
    rw [hm.flow, Flow.stateOf_refill, Deed.next, Deed.effect]
    by_cases hc : p.covers q = true <;> simp [hc]
  · intro t _ _
    exact ⟨_, rfl⟩

lemma grants_grantLoan {behind : Option Place} (hp : c.typing.refPrefix? p = .ok behind) :
    c.Grants s (.access (.lend p kind)) (c.grantLoan p kind pos span behind s).2 := by
  rcases snd_grantLoan c p kind pos span behind s with he | he
  · rw [he]
    exact .of_mild (.refl s) fun _ => rfl
  · rw [he]
    refine ⟨List.prefix_refl _, id, rfl, ?_, fun _ => rfl⟩
    intro ht l hl
    rw [Session.grant, List.mem_append, List.mem_singleton] at hl
    rcases hl with hl | rfl
    · exact ht l hl
    · exact ⟨behind, hp⟩

variable (hc : c.tracksLoans = true)

include hc

lemma does_lend :
    c.Does Prod.snd (fun s => c.access pos span s (.lend p kind)) [.access (.lend p kind)]
      (∃ behind, c.typing.refPrefix? p = .ok behind) (Only (.lend p kind)) := by
  apply Does.of_check
  · intro s hn
    obtain ⟨r, hr⟩ := refusal_of_not_usable hn
    exact ⟨s.flow.borrowFinding p pos span r, deniesUse_borrowFinding s.flow r,
      by simp [access, lend, hc, hr]⟩
  · intro s r hfit hr
    have hnone : s.flow.refusal? p = none := Flow.refusal?_eq_none_iff.mpr hfit
    rcases lend_cases hc hr with ⟨ref, href, -⟩ | ⟨behind, -, hp, hcase⟩
    · rw [hnone] at href
      exact absurd href (by simp)
    · refine ⟨⟨behind, hp⟩, ?_⟩
      rcases hcase with ⟨f, hf, rfl⟩ | ⟨-, rfl⟩
      · exact .of_mild (Session.Still.report hf).mild fun _ => rfl
      · exact grants_grantLoan hp
  · rintro t ⟨behind, hp⟩ hfit
    have hnone : t.flow.refusal? p = none := Flow.refusal?_eq_none_iff.mpr hfit
    exact lend_completes hc hnone hp

theorem does_access (a : Access) :
    ∃ T, ∀ pos span, c.Does Prod.snd (fun s => c.access pos span s a) [.access a] T (Only a) := by
  cases a with
  | read p => exact ⟨_, fun _ _ => does_read⟩
  | move p => exact ⟨_, fun _ _ => does_move⟩
  | write p => exact ⟨_, fun _ _ => does_write⟩
  | lend p kind => exact ⟨_, fun _ _ => does_lend hc⟩

theorem does_accessOf (x : Except Fault Access) :
    ∃ T, ∀ pos span, c.Does Prod.snd (fun s => x >>= c.access pos span s) (Deed.ofAccess x) T
      (fun s a u => x = .ok a ∧ u = s) := by
  cases x with
  | error e =>
    refine ⟨False,
      fun _ _ => Does.congr_tries (A := Silent) (.fail fun s k hk => ?_) fun s a u => ?_⟩
    · cases hk
    · exact ⟨False.elim, fun ht => nomatch ht.1⟩
  | ok a =>
    obtain ⟨T, hT⟩ := does_access hc a
    refine ⟨T, fun pos span => (hT pos span).congr_tries fun s b u => ?_⟩
    rw [Only, Except.ok.injEq, eq_comm]

end

/-! ### Requests -/

def requestDeeds (c : Context) (r : Request) : List Deed := Deed.ofAccess (c.asked r)

section

variable {c : Context} {pos : Int}

lemma perform_place (demand : Demand) (p : Place) (span : Span) (kept : Bool) (s : Session) :
    c.perform pos s (.place demand p span kept) =
      (fun k : List Nat × Session =>
        (if kept then (if demand = .take then c.carried p pos k.2 else k.1) else [], k.2)) <$>
        (c.demanded p demand >>= c.access pos span s) := by
  simp only [perform, fulfil, bind, Except.bind]
  cases c.demanded p demand with
  | error e => rfl
  | ok a =>
    dsimp only
    cases c.access pos span s a <;> rfl

lemma performAll_cons (r : Request) (rest : List Request) (s : Session) :
    c.performAll pos s (r :: rest) = c.perform pos s r >>= fun k =>
      (fun m : List Nat × Session => (k.1 ++ m.1, m.2)) <$> c.performAll pos k.2 rest := by
  simp only [performAll, bind, Except.bind]
  cases c.perform pos s r with
  | error e => rfl
  | ok k => cases c.performAll pos k.2 rest <;> rfl

lemma does_perform (hc : c.tracksLoans = true) (pos : Int) (r : Request) :
    ∃ T, c.Does Prod.snd (fun s => c.perform pos s r) (c.requestDeeds r) T
      (fun s a u => c.asked r = .ok a ∧ u = s) := by
  cases r with
  | fail fault =>
    obtain ⟨T, hT⟩ := does_accessOf hc (.error fault)
    exact ⟨T, hT pos .unknown⟩
  | place demand p span kept =>
    obtain ⟨T, hT⟩ := does_accessOf hc (c.demanded p demand)
    refine ⟨T, ?_⟩
    rw [funext (perform_place demand p span kept)]
    exact (hT pos span).map _ fun _ => .refl _

theorem does_performAll (hc : c.tracksLoans = true) (pos : Int) (rs : List Request) :
    ∃ T, c.Does Prod.snd (fun s => c.performAll pos s rs) (rs.flatMap c.requestDeeds) T
      (c.Asks pos rs) := by
  induction rs with
  | nil =>
    refine ⟨True, .of_mild (fun s r h => ?_) fun t _ => ⟨([], t), rfl⟩⟩
    rw [← Except.ok.inj h]
    exact .refl s
  | cons r rest ih =>
    obtain ⟨T, hT⟩ := does_perform hc pos r
    obtain ⟨U, hU⟩ := ih
    refine ⟨T ∧ U, ?_⟩
    rw [List.flatMap_cons, funext (performAll_cons r rest)]
    exact hT.bind fun k =>
      hU.map (fun m : List Nat × Session => (k.1 ++ m.1, m.2)) fun _ => .refl _

end

end Context

end Ownership
