import Ownership.Proofs.Control.Frames
import Ownership.Proofs.Control.Visits

/-!
# When headers of arms are visited

In the skeleton of a body the arms of a selection come right after it. So a walk comes to the
header of an arm with the ownership state that the selection has left, whatever the arms before
have done, and does not visit the selection again in between.
-/

namespace Ownership

open List

namespace Skeleton

/-- The selections whose arms a skeleton may begin with. -/
def heads : Skeleton → List Selection
  | done | loop .. => []
  | event e =>
    match e.node with
    | .arm _ (some sel) => [sel]
    | _ => []
  | scope _ _ _ _ k | noted _ k | seq k _ => k.heads
  | fork k l => k.heads ++ l.heads

/-- Whether the arms inside a skeleton come right after their selections, which do not occur in
them. -/
def Led : Skeleton → Prop
  | done | event _ => True
  | scope _ _ _ _ k | noted _ k => k.Led
  | seq k l => k.Led ∧ l.Led ∧
    ∀ sel ∈ l.heads, (∃ e, k = event e ∧ e.kind = .step ∧ e.selection? = some sel) ∧
      ∀ e ∈ l.events, e.selection? ≠ some sel
  | fork k l => k.Led ∧ l.Led
  | loop _ _ _ _ k => k.Led ∧ k.heads = []

lemma led_seq_of_nil {k l : Skeleton} (hk : k.Led) (hl : l.Led) (h : l.heads = []) :
    (seq k l).Led := by
  refine ⟨hk, hl, fun sel hsel => ?_⟩
  rw [h] at hsel
  cases hsel

/-- The arms of a selection begin with no headers but their own, and nothing else begins with
one. -/
lemma Laid.led {part : Part} {k : Skeleton} {lo hi : Int} (h : Laid part k lo hi) :
    k.Led ∧ ∀ sel ∈ k.heads, part.selection? = some sel := by
  have hnil : ∀ {l : List Selection}, (∀ sel ∈ l, none = some sel) → l = [] := fun hl =>
    eq_nil_iff_forall_not_mem.mpr (by simpa using hl)
  induction h with
  | nil | empty | simple => exact ⟨trivial, by simp [heads, Event.step]⟩
  | cons _ _ ihk ihl => exact ⟨led_seq_of_nil ihk.1 ihl.1 (hnil ihl.2), ihk.2⟩
  | block _ ih | scope _ ih => exact ih
  | branch _ ih => exact ⟨led_seq_of_nil trivial ih.1 (hnil ih.2), by simp [heads, Event.step]⟩
  | select harms ih =>
    refine ⟨⟨trivial, ih.1, fun sel hsel => ⟨⟨_, rfl, rfl, ih.2 sel hsel⟩, fun e he hesel => ?_⟩⟩,
      by simp [heads, Event.step]⟩
    -- Whatever stands in the arms comes after the label of the selection.
    obtain rfl := Option.some.inj (ih.2 sel hsel)
    have hlt := (harms.spans.mem_events he).1
    rw [(Event.selection?_eq_some hesel).1] at hlt
    exact absurd hlt (Int.not_le.mpr (Int.lt_succ _))
  | loop _ ih => exact ⟨⟨ih.1, hnil ih.2⟩, by simp [heads]⟩
  | fork _ _ ihk ihl =>
    refine ⟨⟨ihk.1, ihl.1⟩, fun sel hsel => ?_⟩
    exact (mem_append.mp hsel).elim (ihk.2 sel) (ihl.2 sel)
  | arm _ ih =>
    refine ⟨led_seq_of_nil trivial ih.1 (hnil ih.2), fun sel hsel => ?_⟩
    rw [mem_singleton.mp hsel]
    rfl

end Skeleton

/-! ### Visits -/

namespace Skeleton

variable {c : Context} {e : Event} {u : Session} {a : Arm} {sel : Selection}

/-- Whether visits lead from one of a selection, the last one before, to one of a header with the
ownership state that the selection has left. -/
def Leads (c : Context) (sel : Selection) (vs : List (Event × Session)) (e : Event) (u : Session) :
    Prop :=
  ∃ before e₀ u₀ m between after, vs = before ++ (e₀, u₀) :: (between ++ (e, u) :: after) ∧
    e₀.kind = .step ∧ e₀.selection? = some sel ∧ (∀ v ∈ between, v.1.selection? ≠ some sel) ∧
    c.execute e₀ u₀ = .ok m ∧ u.flow = m.flow

lemma Leads.mono {vs ws : List (Event × Session)} (h : Leads c sel vs e u) (hvs : vs <:+: ws) :
    Leads c sel ws e u := by
  obtain ⟨before, e₀, u₀, m, between, after, rfl, hrest⟩ := h
  obtain ⟨xs, ys, rfl⟩ := hvs
  exact ⟨xs ++ before, e₀, u₀, m, between, after ++ ys, by simp, hrest⟩

/-- A header of an arm is visited with the state in which a walk begins, or after its selection. -/
lemma leads_of_visit (hc : c.tracksLoans = true) (hr : c.replays = 1) (k : Skeleton) (hk : k.Led)
    {s s' : Session} (h : k.walk c s = .ok s') (hu : (e, u) ∈ k.visits c s)
    (hstep : e.kind = .step) (hn : e.node = .arm a (some sel)) :
    (sel ∈ k.heads ∧ u.flow = s.flow) ∨ Leads c sel (k.visits c s) e u := by
  induction k generalizing s s' with
  | done => cases hu
  | event e' =>
    obtain ⟨rfl, rfl⟩ := Prod.mk.inj (mem_singleton.mp hu)
    refine .inl ⟨?_, rfl⟩
    rw [heads, hn]
    exact mem_cons_self
  | scope start stop node kind body ih =>
    obtain ⟨m, hm, h⟩ := bind_eq_ok.mp h
    obtain ⟨m', hm', -⟩ := bind_eq_ok.mp h
    rw [visits, hm, Fault.seen_ok, hm', Fault.seen_ok] at hu ⊢
    have hflow : m.flow = s.flow := by
      obtain ⟨S, -, rfl⟩ := map_eq_ok.mp hm
      rfl
    rcases mem_cons.mp hu with hu | hu
    · obtain ⟨rfl, -⟩ := Prod.mk.inj hu
      cases hstep
    · rcases mem_append.mp hu with hu | hu
      · rcases ih hk hm' hu with ⟨hsel, hflow'⟩ | hleads
        · exact .inl ⟨hsel, hflow'.trans hflow⟩
        · exact .inr (hleads.mono (infix_cons (prefix_append _ _).isInfix))
      · obtain ⟨rfl, -⟩ := Prod.mk.inj (mem_singleton.mp hu)
        cases hstep
  | noted pos k ih =>
    obtain ⟨m, hm, -⟩ := bind_eq_ok.mp h
    exact ih hk hm hu
  | seq k l ihk ihl =>
    obtain ⟨hlk, hll, hhead⟩ := hk
    obtain ⟨m, hm, hrest⟩ := bind_eq_ok.mp h
    rw [visits, hm, Fault.seen_ok] at hu ⊢
    rcases mem_append.mp hu with hk | hl
    · exact (ihk hlk hm hk).imp_right fun hleads => hleads.mono (prefix_append _ _).isInfix
    · split at hl
      · cases hl
      · rename_i hret
        rw [if_neg hret] at hrest ⊢
        rcases ihl hll hrest hl with ⟨hsel, hflow⟩ | hleads
        · -- The arms begin the second part, so the first one is their selection.
          obtain ⟨⟨e₀, rfl, hk₀, hsel₀⟩, hother⟩ := hhead sel hsel
          obtain ⟨between, after, hsplit⟩ := append_of_mem hl
          refine .inr ⟨[], e₀, s, m, between, after, by rw [hsplit]; rfl, hk₀, hsel₀,
            fun v hv => hother v.1 (mem_events_of_visited l ?_), hm, hflow⟩
          rw [← map_fst_visits hc hr l hrest (Bool.not_eq_true _ ▸ hret), hsplit]
          exact mem_map_of_mem (mem_append_left _ hv)
        · exact .inr (hleads.mono (suffix_append _ _).isInfix)
  | fork k l ihk ihl =>
    obtain ⟨hlk, hll⟩ := hk
    obtain ⟨s₁, h₁, h⟩ := bind_eq_ok.mp h
    obtain ⟨s₂, h₂, -⟩ := bind_eq_ok.mp h
    rw [visits, h₁, Fault.seen_ok] at hu ⊢
    rw [heads, mem_append]
    rcases mem_append.mp hu with hu | hu
    · exact (ihk hlk h₁ hu).imp (fun hs => ⟨.inl hs.1, hs.2⟩) fun hleads =>
        hleads.mono (prefix_append _ _).isInfix
    · exact (ihl hll h₂ hu).imp (fun hs => ⟨.inr hs.1, hs.2⟩) fun hleads =>
        hleads.mono (suffix_append _ _).isInfix
  | loop pos test body loc inner ih =>
    obtain ⟨hli, hnone⟩ := hk
    obtain ⟨m, s₁, m', s₂, hm, h₁, hm', h₂, -⟩ := walk_loop hr h
    rw [visits_loop hr hm h₁ hm' h₂] at hu ⊢
    have hinner : ∀ {x x' : Session}, inner.walk c x = .ok x' → (e, u) ∈ inner.visits c x →
        Leads c sel (inner.visits c x) e u := by
      intro x x' hx hmem
      refine (ih hli hx hmem).resolve_left fun hs => ?_
      rw [hnone] at hs
      exact not_mem_nil hs.1
    rcases mem_cons.mp hu with hu | hu
    · obtain ⟨rfl, -⟩ := Prod.mk.inj hu
      cases hn
    · rcases mem_append.mp hu with hu | hu
      · exact .inr ((hinner h₁ hu).mono (infix_cons (prefix_append _ _).isInfix))
      · rcases mem_cons.mp hu with hu | hu
        · obtain ⟨rfl, -⟩ := Prod.mk.inj hu
          cases hn
        · refine .inr ((hinner h₂ hu).mono (infix_cons ?_))
          exact ((suffix_cons _ _).trans (suffix_append _ _)).isInfix

end Skeleton

/-- In a function every header of an arm is visited after its selection and with the state that the
selection has left. -/
theorem Function.leads_of_visit {c : Context} (hc : c.tracksLoans = true) (hr : c.replays = 1)
    (f : Function) {s s' : Session} (h : f.skeleton.walk c s = .ok s') {e : Event} {u : Session}
    (hu : (e, u) ∈ f.skeleton.visits c s) {a : Arm} {sel : Selection} (hstep : e.kind = .step)
    (hn : e.node = .arm a (some sel)) : Skeleton.Leads c sel (f.skeleton.visits c s) e u := by
  obtain ⟨hled, hheads⟩ := (Stmt.laid_skeletonAll f.bodyStart f.body.stmts).led
  refine (Skeleton.leads_of_visit hc hr f.skeleton hled h hu hstep hn).resolve_left fun hs => ?_
  cases hheads sel hs.1

end Ownership
