import Ownership.Flow
import Mathlib.Order.Lattice
import Mathlib.Tactic.Common

/-!
# The order of ownership states

Moved on some path counts as moved, and uninitialized on some path as uninitialized. The states are
therefore ordered `owned < uninit < moved`, and where two paths meet every place gets the larger of
its two states. A path that has returned is below all others.

What a place needs in order to be used is stated here without any search (`Flow.Usable`,
`Flow.Writable`), and the searches of the analysis are shown to decide it.
-/

namespace Ownership

namespace PlaceState

variable {a b : PlaceState}

def rank : PlaceState → Nat
  | owned => 0
  | uninit => 1
  | moved => 2

lemma rank_injective : Function.Injective rank := by
  intro a b h
  cases a <;> cases b <;> simp [rank] at h <;> rfl

instance : LinearOrder PlaceState := LinearOrder.lift' rank rank_injective

lemma le_iff : a ≤ b ↔ a.rank ≤ b.rank := Iff.rfl

@[simp] lemma le_owned : a ≤ owned ↔ a = owned := by
  cases a <;> simp [le_iff, rank]

@[simp] lemma moved_le : moved ≤ a ↔ a = moved := by
  cases a <;> simp [le_iff, rank]

lemma ne_moved_of_le (h : a ≤ b) (hb : b ≠ moved) : a ≠ moved := by
  rintro rfl
  exact hb (moved_le.mp h)

lemma eq_owned_iff : a = owned ↔ a ≠ uninit ∧ a ≠ moved := by
  cases a <;> simp

lemma merge_eq_max (a b : PlaceState) : a.merge b = max a b := by
  rcases le_total a b with h | h
  · rw [max_eq_right h]
    cases a <;> cases b <;> simp [merge, le_iff, rank] at h ⊢
  · rw [max_eq_left h]
    cases a <;> cases b <;> simp [merge, le_iff, rank] at h ⊢

end PlaceState

namespace Flow

variable {f g h : Flow}

/-! ### States after changes -/

lemma stateOf_mark (f : Flow) (p q : Place) (s : PlaceState) :
    (f.mark p s).stateOf q = if q = p then s else f.stateOf q := by
  simp only [stateOf, get?_mark]
  split <;> rfl

lemma stateOf_moveOut (f : Flow) (p q : Place) (site : MoveSite) :
    (f.moveOut p site).stateOf q
      = if q = p then .moved else if p.covers q then .owned else f.stateOf q := by
  simp only [stateOf, get?_moveOut]
  split
  · rfl
  · split <;> rfl

lemma stateOf_refill (f : Flow) (p q : Place) :
    (f.refill p).stateOf q = if p.covers q then .owned else f.stateOf q := by
  simp only [stateOf, get?_refill]
  by_cases h : q = p
  · subst h; simp
  · rw [if_neg h]
    split <;> rfl

lemma stateOf_forget (f : Flow) (b : Binding) (q : Place) :
    (f.forget b).stateOf q = if q.base = b then .owned else f.stateOf q := by
  simp only [stateOf, get?_forget]
  split <;> rfl

/-! ### Merging -/

@[simp] lemma returned_merge (f g : Flow) : (f.merge g).returned = (f.returned && g.returned) := by
  unfold merge
  cases hf : f.returned <;> cases hg : g.returned <;> simp [hf, hg]

lemma merge_of_returned_left (hf : f.returned = true) (g : Flow) : f.merge g = g := by
  simp [merge, hf]

lemma merge_of_returned_right (hf : f.returned = false) (hg : g.returned = true) :
    f.merge g = f := by
  simp [merge, hf, hg]

lemma stateOf_merge (hf : f.returned = false) (hg : g.returned = false) (p : Place) :
    (f.merge g).stateOf p = max (f.stateOf p) (g.stateOf p) := by
  rw [← PlaceState.merge_eq_max]
  simp only [stateOf, get?_merge hf hg]
  cases f.states.get? p <;> cases g.states.get? p <;> rfl

/-- Whether a path has returned, or else its ownership state is at most another one. -/
def Below (f g : Flow) : Prop :=
  f.returned = false → g.returned = false ∧ ∀ q, f.stateOf q ≤ g.stateOf q

lemma Below.refl (f : Flow) : f.Below f := fun h => ⟨h, fun _ => le_refl _⟩

lemma Below.trans (hfg : f.Below g) (hgh : g.Below h) : f.Below h := by
  intro hf
  obtain ⟨hg, hle⟩ := hfg hf
  obtain ⟨hh, hle'⟩ := hgh hg
  exact ⟨hh, fun q => (hle q).trans (hle' q)⟩

lemma below_merge_left (f g : Flow) : f.Below (f.merge g) := by
  intro hf
  refine ⟨by simp [hf], fun q => ?_⟩
  cases hg : g.returned with
  | false => rw [stateOf_merge hf hg]; exact le_max_left _ _
  | true => rw [merge_of_returned_right hf hg]

lemma below_merge_right (f g : Flow) : g.Below (f.merge g) := by
  intro hg
  refine ⟨by simp [hg], fun q => ?_⟩
  cases hf : f.returned with
  | false => rw [stateOf_merge hf hg]; exact le_max_right _ _
  | true => rw [merge_of_returned_left hf]

lemma merge_attained (h : (f.merge g).returned = false) (q : Place) :
    (f.returned = false ∧ f.stateOf q = (f.merge g).stateOf q) ∨
      (g.returned = false ∧ g.stateOf q = (f.merge g).stateOf q) := by
  cases hf : f.returned with
  | true =>
    rw [returned_merge, hf, Bool.true_and] at h
    exact .inr ⟨h, by rw [merge_of_returned_left hf]⟩
  | false =>
    cases hg : g.returned with
    | true => exact .inl ⟨rfl, by rw [merge_of_returned_right hf hg]⟩
    | false =>
      rw [stateOf_merge hf hg]
      rcases le_total (f.stateOf q) (g.stateOf q) with hle | hle
      · exact .inr ⟨rfl, (max_eq_right hle).symm⟩
      · exact .inl ⟨rfl, (max_eq_left hle).symm⟩

lemma merge_below (hf : f.Below h) (hg : g.Below h) : (f.merge g).Below h := by
  intro hret
  have hboth : ∀ q, h.returned = false ∧ (f.merge g).stateOf q ≤ h.stateOf q := by
    intro q
    rcases merge_attained hret q with ⟨hr, hq⟩ | ⟨hr, hq⟩
    · rw [← hq]
      exact ⟨(hf hr).1, (hf hr).2 q⟩
    · rw [← hq]
      exact ⟨(hg hr).1, (hg hr).2 q⟩
  exact ⟨(hboth default).1, fun q => (hboth q).2⟩

lemma Below.merge {f' g' : Flow} (h : f.Below f') (h' : g.Below g') :
    (f.merge g).Below (f'.merge g') :=
  merge_below (h.trans (below_merge_left f' g')) (h'.trans (below_merge_right f' g'))

end Flow

/-! ### Strict prefixes -/

lemma Projection.mem_strictPrefixes {path l : List Projection} :
    path ∈ Projection.strictPrefixes l ↔ path <+: l ∧ path ≠ l := by
  induction l generalizing path with
  | nil => simp [Projection.strictPrefixes]
  | cons a rest ih =>
    simp only [Projection.strictPrefixes, List.mem_cons, List.mem_map]
    constructor
    · rintro (rfl | ⟨path', h, rfl⟩)
      · simp
      · obtain ⟨hp, hne⟩ := ih.mp h
        exact ⟨List.cons_prefix_cons.mpr ⟨rfl, hp⟩, fun he => hne (List.cons.inj he).2⟩
    · rintro ⟨hp, hne⟩
      cases path with
      | nil => exact .inl rfl
      | cons b path' =>
        obtain ⟨rfl, hp'⟩ := List.cons_prefix_cons.mp hp
        exact .inr ⟨path', ih.mpr ⟨hp', fun he => hne (by rw [he])⟩, rfl⟩

lemma Place.mem_strictPrefixes {p q : Place} :
    q ∈ p.strictPrefixes ↔ q.covers p = true ∧ q ≠ p := by
  obtain ⟨b, path⟩ := p
  obtain ⟨b', path'⟩ := q
  simp only [Place.strictPrefixes, List.mem_map, Projection.mem_strictPrefixes, Place.covers_iff,
    Place.mk.injEq, ne_eq]
  constructor
  · rintro ⟨l, ⟨hp, hne⟩, rfl, rfl⟩
    exact ⟨⟨rfl, hp⟩, fun h => hne h.2⟩
  · rintro ⟨⟨rfl, hp⟩, hne⟩
    exact ⟨path', ⟨hp, fun h => hne ⟨rfl, h⟩⟩, rfl, rfl⟩

@[simp] lemma Place.ofBinding_covers (p : Place) : (Place.ofBinding p.base).covers p = true := by
  simp [Place.covers, Place.ofBinding]

/-! ### Usability -/

namespace Flow

variable {f : Flow} {p : Place}

/-- What a place needs in order to be read, moved or borrowed: its binding has a value, and nothing
that is moved contains it or lies in it. -/
structure Usable (f : Flow) (p : Place) : Prop where
  initialized : f.stateOf (.ofBinding p.base) ≠ .uninit
  unmoved : ∀ q, q.covers p = true ∨ p.covers q = true → f.stateOf q ≠ .moved

/-- What a place needs in order to be written. A whole binding needs nothing; a part needs that its
binding has a value and that nothing around it is moved. -/
def Writable (f : Flow) (p : Place) : Prop :=
  p.path ≠ [] → f.stateOf (.ofBinding p.base) ≠ .uninit ∧
    ∀ q, q.covers p = true → q ≠ p → f.stateOf q ≠ .moved

lemma stateOf_eq_moved_iff : f.stateOf p = .moved ↔ f.states.get? p = some .moved := by
  unfold stateOf
  cases f.states.get? p <;> simp

lemma baseUninit_iff : f.baseUninit p = true ↔ f.stateOf (.ofBinding p.base) = .uninit := by
  unfold baseUninit stateOf
  cases f.states.get? (.ofBinding p.base) <;> simp

lemma isMoved_iff : f.isMoved p = true ↔ f.stateOf p = .moved := by
  rw [stateOf_eq_moved_iff]
  simp [isMoved]

/-- A search among strict prefixes finds nothing exactly when nothing around the place is moved. -/
lemma find?_strictPrefixes_eq_none_iff :
    p.strictPrefixes.find? f.isMoved = none ↔
      ∀ q, q.covers p = true → q ≠ p → f.stateOf q ≠ .moved := by
  rw [List.find?_eq_none]
  constructor
  · intro h q hq hne hm
    exact h q (Place.mem_strictPrefixes.mpr ⟨hq, hne⟩) (isMoved_iff.mpr hm)
  · intro h q hq hm
    obtain ⟨hc, hne⟩ := Place.mem_strictPrefixes.mp hq
    exact h q hc hne (isMoved_iff.mp hm)

lemma find?_entries_eq_none_iff :
    f.states.entries.find? (fun e => e.2 = .moved && e.1 ≠ p && p.covers e.1) = none ↔
      ∀ q, p.covers q = true → q ≠ p → f.stateOf q ≠ .moved := by
  rw [List.find?_eq_none]
  constructor
  · intro h q hq hne hm
    rw [stateOf_eq_moved_iff, Registry.get?_eq_some_iff] at hm
    exact h _ hm (by simp [hne, hq])
  · rintro h ⟨q, st⟩ he hcond
    simp only [ne_eq, decide_not, Bool.and_eq_true, decide_eq_true_eq, Bool.not_eq_true',
      decide_eq_false_iff_not] at hcond
    obtain ⟨⟨rfl, hne⟩, hc⟩ := hcond
    exact h q hc hne (stateOf_eq_moved_iff.mpr (Registry.get?_eq_some_iff.mpr he))

/-- No moved place is found exactly if none contains the place or lies in it. -/
lemma movedConflict?_eq_none_iff :
    f.movedConflict? p = none ↔
      ∀ q, q.covers p = true ∨ p.covers q = true → f.stateOf q ≠ .moved := by
  rw [movedConflict?, Option.or_eq_none_iff, Option.map_eq_none_iff, List.find?_append,
    Option.or_eq_none_iff, find?_strictPrefixes_eq_none_iff, find?_entries_eq_none_iff]
  constructor
  · rintro ⟨⟨houter, hself⟩, hinner⟩ q hq
    by_cases hqp : q = p
    · subst hqp
      simpa [isMoved_iff] using hself
    · rcases hq with hq | hq
      · exact houter q hq hqp
      · exact hinner q hq hqp
  · intro h
    refine ⟨⟨fun q hq _ => h q (.inl hq), ?_⟩, fun q hq _ => h q (.inr hq)⟩
    simpa [isMoved_iff] using h p (.inl (Place.covers_refl p))

/-- The search for a refusal decides usability. -/
theorem refusal?_eq_none_iff : f.refusal? p = none ↔ f.Usable p := by
  unfold refusal?
  by_cases hu : f.baseUninit p = true
  · rw [if_pos hu]
    refine ⟨fun h => by simp at h, fun h => absurd (baseUninit_iff.mp hu) h.initialized⟩
  · rw [if_neg hu, Option.map_eq_none_iff, movedConflict?_eq_none_iff]
    exact ⟨fun h => ⟨fun hi => hu (baseUninit_iff.mpr hi), h⟩, fun h => h.unmoved⟩

theorem writeRefusal?_eq_none_iff : f.writeRefusal? p = none ↔ f.Writable p := by
  unfold writeRefusal? Writable
  by_cases hp : p.path = []
  · simp [hp]
  · rw [if_neg (by simpa using hp)]
    by_cases hu : f.baseUninit p = true
    · rw [if_pos hu]
      refine ⟨fun h => by simp at h, fun h => absurd (baseUninit_iff.mp hu) (h hp).1⟩
    · rw [if_neg hu, Option.map_eq_none_iff, find?_strictPrefixes_eq_none_iff]
      exact ⟨fun h _ => ⟨fun hi => hu (baseUninit_iff.mpr hi), h⟩, fun h => (h hp).2⟩

end Flow

end Ownership
