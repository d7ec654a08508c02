import Ownership.Proofs.Scope.Nesting

/-!
# Scopes inside other scopes

A scope knows the scopes that were open when it was entered, the innermost first. So a scope
encloses another one exactly if it lies around it.
-/

namespace Ownership

/-- Whether each open scope knows those below it on a stack. -/
def OpenScope.Chained : List OpenScope → Prop
  | [] => True
  | top :: rest => top.scope.outer = rest.map (·.scope.id) ∧ Chained rest

namespace ScopeBuilder

variable {b b' : ScopeBuilder} {e : Event} {es : List Event}

lemma around_of_chained (h : OpenScope.Chained b.stack) : b.around = b.ids := by
  unfold around ids
  cases hb : b.stack with
  | nil => rfl
  | cons top rest =>
    rw [hb] at h
    exact congrArg _ h.1

/-- Whether each scope knows the scopes that were open when it was entered. -/
structure Surrounded (b : ScopeBuilder) : Prop where
  chained : OpenScope.Chained b.stack
  sorted : ∀ s ∈ b.tree.scopes, s.outer.Pairwise (· > ·)
  outer : ∀ s ∈ b.tree.scopes, ∀ id, id ∈ s.outer ↔ b.OpenAt id s.start

namespace Surrounded

variable (h : b.Surrounded)

include h

lemma enter (hp : Placed es b) (hnest : Nested es b) (hpos : ∀ e' ∈ es, e'.pos < e.pos) :
    (b.enter e).Surrounded := by
  have haround := around_of_chained h.chained
  obtain ⟨new, ⟨-, hstart, houter⟩, hscopes⟩ := scopes_enter b e
  refine ⟨⟨haround, h.chained⟩, ?_, ?_⟩
  · intro s hs
    rw [hscopes, List.mem_append, List.mem_singleton] at hs
    rcases hs with hs | rfl
    · exact h.sorted s hs
    · rw [houter, haround]
      exact hnest.descending
  · intro s hs id
    rw [hscopes, List.mem_append, List.mem_singleton] at hs
    rcases hs with hs | rfl
    · obtain ⟨i, hi⟩ := List.mem_iff_getElem?.mp hs
      rw [openAt_enter (hnest.start_lt hpos hi).le]
      exact h.outer s hs id
    · rw [houter, haround, hstart, openAt_enter le_rfl, hp.openAt_pos hpos]

/-- The scope that ends lies inside those that stay open. -/
lemma exit (hp : Placed es b) (hnest : Nested es b) (hpos : ∀ e' ∈ es, e'.pos < e.pos)
    {top : OpenScope} {rest : List OpenScope} (hr : b.Reads e (b.exited e top rest))
    (hb : b.stack = top :: rest) : (b.exited e top rest).Surrounded := by
  have hchained := h.chained
  rw [hb] at hchained
  -- The end of a scope changes neither where a scope starts nor what it knows.
  have hback : ∀ {s : Scope}, s ∈ (b.exited e top rest).tree.scopes →
      ∃ (i : Nat) (s₀ : Scope), b.tree.scopes[i]? = some s₀ ∧ s.start = s₀.start ∧
        s.outer = s₀.outer := by
    intro s hs
    obtain ⟨i, hi⟩ := List.mem_iff_getElem?.mp hs
    rcases scopes_exited_cases hi with ⟨-, hi⟩ | ⟨-, s₀, hs₀, rfl⟩
    · exact ⟨i, s, hi, rfl, rfl⟩
    · exact ⟨i, s₀, hs₀, rfl, rfl⟩
  refine ⟨hchained.2, fun s hs => ?_, fun s hs id => ?_⟩
  · obtain ⟨i, s₀, hs₀, -, houter⟩ := hback hs
    exact houter ▸ h.sorted s₀ (List.mem_of_getElem? hs₀)
  · obtain ⟨i, s₀, hs₀, hstart, houter⟩ := hback hs
    rw [hstart, houter, hp.openAt_iff hr (hnest.start_lt hpos hs₀)]
    exact h.outer s₀ (List.mem_of_getElem? hs₀) id

lemma step {top : OpenScope} {rest : List OpenScope} (hb : b.stack = top :: rest) :
    (b.executed e top rest).Surrounded := by
  have hchained := h.chained
  rw [hb] at hchained
  refine ⟨hchained, h.sorted, fun s hs id => ?_⟩
  simp only [OpenAt, ids_executed hb]
  exact h.outer s hs id

theorem read (hp : Placed es b) (hnest : Nested es b) (hpos : ∀ e' ∈ es, e'.pos < e.pos)
    (hr : b.Reads e b') : b'.Surrounded := by
  cases hr with
  | enter he => exact h.enter hp hnest hpos
  | exit he hb hl => exact h.exit hp hnest hpos (.exit he hb hl) hb
  | step he hb hk hnb => exact h.step hb

end Surrounded

end ScopeBuilder

namespace ScopeTree

variable {f : Function} {t : ScopeTree}

variable (h : ofFunction f = .ok t)

include h

/-- The scopes around a scope are listed from the inside out. -/
theorem outer_of_ofFunction {B : Scope} (hB : B ∈ t.scopes) :
    B.outer.Pairwise (· > ·) ∧ ∀ id, id ∈ B.outer ↔
      ∃ A, t.scopes[id]? = some A ∧ A.start < B.start ∧ B.start < A.stop := by
  obtain ⟨-, -, b, -, -, hread, hstack, rfl⟩ := ofEvents_eq_ok_iff.mp (ofEvents_of_ofFunction h)
  have hall : b.Placed f.events ∧ b.Nested f.events ∧ b.Surrounded := by
    apply ScopeBuilder.read_induction (P := fun es b => b.Placed es ∧ b.Nested es ∧
      b.Surrounded) _ _
      f.numbered_events hread
    · exact ⟨.empty _ rfl rfl, .empty _ rfl rfl, trivial, by simp, by simp⟩
    · rintro es e m m' hn ⟨hp, hnest, hs⟩ hr
      have hpos := hn.of_append_singleton.2
      exact ⟨hp.read hr hpos, hnest.read hp hn hr, hs.read hp hnest hpos hr⟩
  refine ⟨hall.2.2.sorted B hB, fun id => ?_⟩
  rw [hall.2.2.outer B hB id, ScopeBuilder.OpenAt, ScopeBuilder.ids, hstack]
  simp only [List.map_nil, List.not_mem_nil, false_or]

lemma encloses_iff {A B : Scope} (hA : A ∈ t.scopes) (hB : B ∈ t.scopes) :
    A.encloses B = true ↔ A = B ∨ A.start < B.start ∧ B.start < A.stop := by
  have hnests := nests_of_ofFunction h
  have hA' := hnests.getElem?_id hA
  rw [Scope.encloses, Bool.or_eq_true, beq_iff_eq, List.contains_iff_mem,
    (outer_of_ofFunction h hB).2 A.id, hA']
  refine or_congr ⟨fun hid => ?_, congrArg _⟩ (by simp)
  exact Option.some.inj (hA'.symm.trans (hid ▸ hnests.getElem?_id hB))

theorem stop_le_of_encloses {S X : Scope} (hS : S ∈ t.scopes) (hX : X ∈ t.scopes)
    (hin : S.encloses X = true) : X.stop ≤ S.stop := by
  rcases (encloses_iff h hS hX).mp hin with rfl | ⟨hstart, hstop⟩
  · exact le_rfl
  · exact ((nests_of_ofFunction h).layered S hS X hX hstart hstop).le

end ScopeTree

end Ownership
