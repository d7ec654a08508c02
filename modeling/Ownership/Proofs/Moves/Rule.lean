import Ownership.Proofs.Checker.Session
import Ownership.Proofs.Moves.Deed

/-!
# Rules and their deeds

A rule of the walk is a function on sessions that may break down. `Context.Does` relates such a
function to a list of deeds: it refuses a use exactly when the deeds do not pass, and leaves what
the deeds leave. Besides, it says which accesses the rule tries and in which sessions, so that the
first refusal in one session can be found again in another one that agrees with it at a single
place.
-/

namespace Ownership

namespace Session

/-- Whether deeds are allowed one after another from the ownership state of a session. -/
def Passes (s : Session) (ds : List Deed) : Prop := ∀ q, Deed.Passes q ds (s.flow.stateOf q)

/-- Whether a session has the ownership state that deeds leave behind. -/
def Leaves (s : Session) (ds : List Deed) (s' : Session) : Prop :=
  ∀ q, s'.flow.stateOf q = Deed.after q ds (s.flow.stateOf q)

/-- Whether no place is in a larger state than in another session. -/
def Under (t s : Session) : Prop := ∀ q, t.flow.stateOf q ≤ s.flow.stateOf q

variable {s m s' t : Session} {ds es : List Deed}

lemma Leaves.nil_of_flow (h : s'.flow = s.flow) : s.Leaves [] s' := fun q => by rw [h]; rfl

lemma Leaves.append (h : s.Leaves ds m) (h' : m.Leaves es s') : s.Leaves (ds ++ es) s' := by
  intro q
  rw [Deed.after_append, ← h q]
  exact h' q

lemma passes_append (h : s.Leaves ds m) : s.Passes (ds ++ es) ↔ s.Passes ds ∧ m.Passes es := by
  constructor
  · intro hp
    refine ⟨fun q => (Deed.passes_append.mp (hp q)).1, fun q => ?_⟩
    rw [h q]
    exact (Deed.passes_append.mp (hp q)).2
  · rintro ⟨hds, hes⟩ q
    refine Deed.passes_append.mpr ⟨hds q, ?_⟩
    rw [← h q]
    exact hes q

lemma Passes.of_append (h : s.Passes (ds ++ es)) : s.Passes ds :=
  fun q => (Deed.passes_append.mp (h q)).1

lemma Passes.of_under (h : s.Passes ds) (ht : t.Under s) : t.Passes ds :=
  fun q => Deed.passes_anti (ht q) (h q)

lemma Under.of_leaves (ht : t.Under s) {t' : Session} (h : t.Leaves ds t') (h' : s.Leaves ds s') :
    t'.Under s' := by
  intro q
  rw [h q, h' q]
  exact Deed.after_mono (ht q)

lemma passes_access {a : Access} : s.Passes [.access a] ↔ a.Fits s.flow := by
  rw [Access.fits_iff]
  exact forall_congr' fun q => by simp [Deed.Allows]

end Session

namespace Context

variable {ρ σ : Type}

/-- What a rule does, seen as deeds. The rule takes a session to a result, of which `out` is the
session. It needs some facts about types, which hold once it has been seen to refuse nothing. -/
structure Does (c : Context) (out : ρ → Session) (rule : Session → Except Fault ρ)
    (ds : List Deed) (typed : Prop) (tries : Session → Access → Session → Prop) : Prop where
  grows {s r} : rule s = .ok r → s.findings <+: (out r).findings
  returned {s r} : rule s = .ok r → (out r).flow.returned = s.flow.returned
  loansTyped {s r} : rule s = .ok r → c.LoansTyped s → c.LoansTyped (out r)
  leaves {s r} : rule s = .ok r → s.Passes ds → s.Leaves ds (out r)
  clean {s r} : rule s = .ok r → s.Clean → s.Passes ds → (out r).Clean
  passes {s r} : rule s = .ok r → (out r).Clean → typed ∧ s.Passes ds
  completes {t} : typed → c.LoansTyped t → t.Passes ds → ∃ r, rule t = .ok r
  fits {t a u} : tries t a u → t.Passes ds → a.Fits u.flow
  /-- A refusal is due to one place: wherever it is in the same state and no other is in a larger
  one, some access is refused. -/
  refused {s r} : rule s = .ok r → s.Clean → ¬(out r).Clean → ∃ q, ∀ t, c.LoansTyped t →
    t.Under s → t.flow.stateOf q = s.flow.stateOf q → ∃ a u, tries t a u ∧ ¬a.Fits u.flow

/-- What a change of sessions does, seen as deeds, when it checks nothing. -/
structure Updates (c : Context) (g : Session → Session) (ds : List Deed) : Prop where
  findings (s) : (g s).findings = s.findings
  returned (s) : (g s).flow.returned = s.flow.returned
  loansTyped {s} : c.LoansTyped s → c.LoansTyped (g s)
  leaves (s : Session) : s.Leaves ds (g s)
  passes (s : Session) : s.Passes ds

lemma Updates.foldl {c : Context} {β : Type} {g : Session → β → Session} {d : β → Deed}
    (h : ∀ b, c.Updates (g · b) [d b]) (l : List β) :
    c.Updates (fun s => l.foldl g s) (l.map d) := by
  induction l with
  | nil => exact ⟨fun _ => rfl, fun _ => rfl, id, fun _ _ => rfl, fun _ _ => trivial⟩
  | cons b l ih =>
    constructor
    · intro s
      exact (ih.findings (g s b)).trans ((h b).findings s)
    · intro s
      exact (ih.returned (g s b)).trans ((h b).returned s)
    · intro s hs
      exact ih.loansTyped ((h b).loansTyped hs)
    · intro s
      exact ((h b).leaves s).append (ih.leaves (g s b))
    · intro s
      exact (Session.passes_append ((h b).leaves s)).mpr ⟨(h b).passes s, ih.passes (g s b)⟩

def Silent : Session → Access → Session → Prop := fun _ _ _ => False

namespace Does

variable {c : Context} {out : ρ → Session} {out' : σ → Session}
  {rule : Session → Except Fault ρ} {next : ρ → Session → Except Fault σ}
  {ds es : List Deed} {T U : Prop} {A B : Session → Access → Session → Prop}

lemma fail (h : ∀ s r, rule s ≠ .ok r) : c.Does out rule ds False Silent where
  grows hr := absurd hr (h _ _)
  returned hr := absurd hr (h _ _)
  loansTyped hr := absurd hr (h _ _)
  leaves hr := absurd hr (h _ _)
  clean hr := absurd hr (h _ _)
  passes hr := absurd hr (h _ _)
  completes hT := hT.elim
  fits hA := hA.elim
  refused hr := absurd hr (h _ _)

lemma of_mild (h : ∀ s r, rule s = .ok r → s.Mild (out r))
    (hc : ∀ t, c.LoansTyped t → ∃ r, rule t = .ok r) : c.Does out rule [] True Silent where
  grows hr := (h _ _ hr).findings
  returned hr := by rw [(h _ _ hr).flow]
  loansTyped hr ht := ht.of_mild (h _ _ hr)
  leaves hr _ := .nil_of_flow (h _ _ hr).flow
  clean hr hs _ := (h _ _ hr).clean hs
  passes _ _ := ⟨trivial, fun _ => trivial⟩
  completes _ ht _ := hc _ ht
  fits hA := hA.elim
  refused hr hs hn := absurd ((h _ _ hr).clean hs) hn

lemma of_updates {g : Session → Session} (h : c.Updates g ds) :
    c.Does id (fun s => .ok (g s)) ds True Silent := by
  have hok : ∀ {s r}, Except.ok (g s) = (.ok r : Except Fault Session) → r = g s :=
    fun h => (Except.ok.inj h).symm
  have hclean : ∀ {s}, s.Clean → (g s).Clean := fun {s} hs => by rwa [Session.Clean, h.findings]
  constructor
  · intro s r hr
    simp only [hok hr, id, h.findings, List.prefix_rfl]
  · intro s r hr
    rw [hok hr]
    exact h.returned s
  · intro s r hr ht
    rw [hok hr]
    exact h.loansTyped ht
  · intro s r hr _
    rw [hok hr]
    exact h.leaves s
  · intro s r hr hs _
    rw [hok hr]
    exact hclean hs
  · intro s r _ _
    exact ⟨trivial, h.passes s⟩
  · intro t _ _ _
    exact ⟨_, rfl⟩
  · intro t a u hA
    exact hA.elim
  · intro s r hr hs hn
    rw [hok hr] at hn
    exact absurd (hclean hs) hn

lemma congr_tries (h : c.Does out rule ds T A) (hAB : ∀ s a u, A s a u ↔ B s a u) :
    c.Does out rule ds T B := by
  have he : A = B := by
    funext s a u
    exact propext (hAB s a u)
  exact he ▸ h

lemma map (g : ρ → σ) (h : c.Does out rule ds T A) (hg : ∀ r, (out r).Mild (out' (g r))) :
    c.Does out' (fun s => g <$> rule s) ds T A := by
  constructor
  · intro s r' hr'
    obtain ⟨r, hr, rfl⟩ := map_eq_ok.mp hr'
    exact (h.grows hr).trans (hg r).findings
  · intro s r' hr'
    obtain ⟨r, hr, rfl⟩ := map_eq_ok.mp hr'
    rw [(hg r).flow]
    exact h.returned hr
  · intro s r' hr' ht
    obtain ⟨r, hr, rfl⟩ := map_eq_ok.mp hr'
    exact (h.loansTyped hr ht).of_mild (hg r)
  · intro s r' hr' hp q
    obtain ⟨r, hr, rfl⟩ := map_eq_ok.mp hr'
    rw [(hg r).flow]
    exact h.leaves hr hp q
  · intro s r' hr' hs hp
    obtain ⟨r, hr, rfl⟩ := map_eq_ok.mp hr'
    exact (hg r).clean (h.clean hr hs hp)
  · intro s r' hr' hs
    obtain ⟨r, hr, rfl⟩ := map_eq_ok.mp hr'
    exact h.passes hr (hs.of_prefix (hg r).findings)
  · intro t hT ht hp
    obtain ⟨r, hr⟩ := h.completes hT ht hp
    exact ⟨g r, map_eq_ok.mpr ⟨r, hr, rfl⟩⟩
  · exact h.fits
  · intro s r' hr' hs hn
    obtain ⟨r, hr, rfl⟩ := map_eq_ok.mp hr'
    exact h.refused hr hs fun hclean => hn ((hg r).clean hclean)

/-- One rule after another: the deeds of the second follow those of the first. What the second tries
must not depend on what the first hands over besides the session. -/
theorem bind (h : c.Does out rule ds T A) (h' : ∀ r, c.Does out' (next r) es U B) :
    c.Does out' (fun s => rule s >>= fun r => next r (out r)) (ds ++ es) (T ∧ U)
      (fun s a u => A s a u ∨ ∃ r, rule s = .ok r ∧ B (out r) a u) := by
  constructor
  · intro s r' hr'
    obtain ⟨r, hr, hn⟩ := bind_eq_ok.mp hr'
    exact (h.grows hr).trans ((h' r).grows hn)
  · intro s r' hr'
    obtain ⟨r, hr, hn⟩ := bind_eq_ok.mp hr'
    exact ((h' r).returned hn).trans (h.returned hr)
  · intro s r' hr' ht
    obtain ⟨r, hr, hn⟩ := bind_eq_ok.mp hr'
    exact (h' r).loansTyped hn (h.loansTyped hr ht)
  · intro s r' hr' hp
    obtain ⟨r, hr, hn⟩ := bind_eq_ok.mp hr'
    have hl := h.leaves hr hp.of_append
    exact hl.append ((h' r).leaves hn ((Session.passes_append hl).mp hp).2)
  · intro s r' hr' hs hp
    obtain ⟨r, hr, hn⟩ := bind_eq_ok.mp hr'
    have hl := h.leaves hr hp.of_append
    exact (h' r).clean hn (h.clean hr hs hp.of_append) ((Session.passes_append hl).mp hp).2
  · intro s r' hr' hs
    obtain ⟨r, hr, hn⟩ := bind_eq_ok.mp hr'
    obtain ⟨hT, hp⟩ := h.passes hr (hs.of_prefix ((h' r).grows hn))
    obtain ⟨hU, hp'⟩ := (h' r).passes hn hs
    exact ⟨⟨hT, hU⟩, (Session.passes_append (h.leaves hr hp)).mpr ⟨hp, hp'⟩⟩
  · rintro t ⟨hT, hU⟩ ht hp
    obtain ⟨r, hr⟩ := h.completes hT ht hp.of_append
    have hl := h.leaves hr hp.of_append
    obtain ⟨r', hr'⟩ :=
      (h' r).completes hU (h.loansTyped hr ht) ((Session.passes_append hl).mp hp).2
    exact ⟨r', bind_eq_ok.mpr ⟨r, hr, hr'⟩⟩
  · rintro t a u (hA | ⟨r, hr, hB⟩) hp
    · exact h.fits hA hp.of_append
    · have hl := h.leaves hr hp.of_append
      exact (h' r).fits hB ((Session.passes_append hl).mp hp).2
  · intro s r' hr' hs hn
    obtain ⟨r, hr, hnext⟩ := bind_eq_ok.mp hr'
    by_cases hm : (out r).Clean
    · -- The second rule refuses. From a smaller session the first one still passes, and it leads
      -- to a smaller session that agrees at the same place.
      obtain ⟨hT, hp⟩ := h.passes hr hm
      obtain ⟨q, hq⟩ := (h' r).refused hnext hm hn
      refine ⟨q, fun t ht hts heq => ?_⟩
      have hpt : t.Passes ds := hp.of_under hts
      obtain ⟨k, hk⟩ := h.completes hT ht hpt
      have hlk := h.leaves hk hpt
      have hlr := h.leaves hr hp
      obtain ⟨a, u, hB, hfit⟩ := hq (out k) (h.loansTyped hk ht) (hts.of_leaves hlk hlr)
        (by rw [hlk q, hlr q, heq])
      exact ⟨a, u, .inr ⟨k, hk, hB⟩, hfit⟩
    · obtain ⟨q, hq⟩ := h.refused hr hs hm
      refine ⟨q, fun t ht hts heq => ?_⟩
      obtain ⟨a, u, hA, hfit⟩ := hq t ht hts heq
      exact ⟨a, u, .inl hA, hfit⟩

end Does

end Context

end Ownership
