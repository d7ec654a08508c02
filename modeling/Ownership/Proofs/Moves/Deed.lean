import Ownership.Checker.Access
import Ownership.Proofs.Flow.Order

/-!
# What is done to one place

Whether an access fits an ownership state can be decided place by place, and so can what it leaves
behind. Seen from one place, everything a rule does either puts the place into a fixed state or
leaves it alone. This is what makes paths comparable with their merge: a list of deeds that passes
from some state passes from every smaller one, and repeating it leads to no new states.
-/

namespace Ownership

namespace Access

variable {f : Flow} {p q : Place} {a : Access} {x y : PlaceState}

/-- Whether the places of an access are in a state that permits it. -/
def Fits (f : Flow) : Access → Prop
  | read p | move p | lend p _ => f.Usable p
  | write p => f.Writable p

/-- What an access asks of the state of one place. -/
def Allows (q : Place) (x : PlaceState) : Access → Prop
  | read p | move p | lend p _ =>
    (q = .ofBinding p.base → x ≠ .uninit) ∧ (q.covers p = true ∨ p.covers q = true → x ≠ .moved)
  | write p =>
    p.path ≠ [] → (q = .ofBinding p.base → x ≠ .uninit) ∧ (q.covers p = true → q ≠ p → x ≠ .moved)

lemma usable_iff :
    f.Usable p ↔ ∀ q, (q = .ofBinding p.base → f.stateOf q ≠ .uninit) ∧
      (q.covers p = true ∨ p.covers q = true → f.stateOf q ≠ .moved) := by
  constructor
  · rintro ⟨hinit, hmoved⟩ q
    refine ⟨?_, hmoved q⟩
    rintro rfl
    exact hinit
  · intro h
    exact ⟨(h _).1 rfl, fun q => (h q).2⟩

lemma writable_iff :
    f.Writable p ↔ ∀ q, p.path ≠ [] → (q = .ofBinding p.base → f.stateOf q ≠ .uninit) ∧
      (q.covers p = true → q ≠ p → f.stateOf q ≠ .moved) := by
  constructor
  · intro h q hp
    obtain ⟨hinit, hmoved⟩ := h hp
    refine ⟨?_, hmoved q⟩
    rintro rfl
    exact hinit
  · intro h hp
    exact ⟨(h _ hp).1 rfl, fun q => (h q hp).2⟩

/-- An access fits when it fits at every place. -/
theorem fits_iff : a.Fits f ↔ ∀ q, a.Allows q (f.stateOf q) := by
  cases a with
  | read p | move p | lend p kind => exact usable_iff
  | write p => exact writable_iff

lemma ne_uninit_of_le (hxy : x ≤ y) (hinit : y ≠ .uninit) (hmoved : y ≠ .moved) : x ≠ .uninit := by
  rw [PlaceState.eq_owned_iff.mpr ⟨hinit, hmoved⟩, PlaceState.le_owned] at hxy
  simp [hxy]

/-- What a use allows, it allows in smaller states. The base of a place is where uninitialized
counts, and there moved is excluded as well. -/
lemma use_anti (hxy : x ≤ y)
    (h : (q = .ofBinding p.base → y ≠ .uninit) ∧
      (q.covers p = true ∨ p.covers q = true → y ≠ .moved)) :
    (q = .ofBinding p.base → x ≠ .uninit) ∧
      (q.covers p = true ∨ p.covers q = true → x ≠ .moved) := by
  obtain ⟨hinit, hmoved⟩ := h
  refine ⟨?_, fun hq => PlaceState.ne_moved_of_le hxy (hmoved hq)⟩
  rintro rfl
  exact ne_uninit_of_le hxy (hinit rfl) (hmoved (.inl (Place.ofBinding_covers p)))

lemma write_anti (hp : p.path ≠ []) (hxy : x ≤ y)
    (h : (q = .ofBinding p.base → y ≠ .uninit) ∧ (q.covers p = true → q ≠ p → y ≠ .moved)) :
    (q = .ofBinding p.base → x ≠ .uninit) ∧ (q.covers p = true → q ≠ p → x ≠ .moved) := by
  obtain ⟨hinit, hmoved⟩ := h
  refine ⟨?_, fun hq hne => PlaceState.ne_moved_of_le hxy (hmoved hq hne)⟩
  rintro rfl
  have hne : Place.ofBinding p.base ≠ p := fun he => hp (by rw [← he]; rfl)
  exact ne_uninit_of_le hxy (hinit rfl) (hmoved (Place.ofBinding_covers p) hne)

lemma allows_anti (hxy : x ≤ y) (h : a.Allows q y) : a.Allows q x := by
  cases a with
  | read p | move p | lend p kind => exact use_anti hxy h
  | write p => exact fun hp => write_anti hp hxy (h hp)

end Access

lemma Flow.Usable.of_le {f g : Flow} {p : Place} (hg : g.Usable p)
    (h : ∀ q, f.stateOf q ≤ g.stateOf q) : f.Usable p :=
  Access.usable_iff.mpr fun q => Access.use_anti (h q) (Access.usable_iff.mp hg q)

/-- What a rule does to the ownership state. -/
inductive Deed where
  | access (a : Access)
  | mark (place : Place) (state : PlaceState)
  | forget (b : Binding)

namespace Deed

/-- The deed of an access that a query decides; nothing is done if the query has no answer. -/
def ofAccess : Except Fault Access → List Deed
  | .ok a => [access a]
  | .error _ => []

/-- The state that a deed puts a place into, if it does not leave the place alone. -/
def effect (q : Place) : Deed → Option PlaceState
  | access (.read _) | access (.lend _ _) => none
  | access (.move p) => if q = p then some .moved else if p.covers q then some .owned else none
  | access (.write p) => if p.covers q then some .owned else none
  | mark p state => if q = p then some state else none
  | forget b => if q.base = b then some .owned else none

/-- What a deed asks of the state of one place; only accesses are checked. -/
def Allows (q : Place) (x : PlaceState) : Deed → Prop
  | access a => a.Allows q x
  | mark _ _ | forget _ => True

def next (q : Place) (x : PlaceState) (d : Deed) : PlaceState := (d.effect q).getD x

def after (q : Place) (ds : List Deed) (x : PlaceState) : PlaceState := ds.foldl (next q) x

/-- Whether each deed is allowed, seen from one place, in the state that those before it left. -/
def Passes (q : Place) : List Deed → PlaceState → Prop
  | [], _ => True
  | d :: ds, x => d.Allows q x ∧ Passes q ds (d.next q x)

variable {q : Place} {ds es : List Deed} {x y z : PlaceState}

@[simp] lemma after_nil : after q [] x = x := rfl

@[simp] lemma after_cons (d : Deed) : after q (d :: ds) x = after q ds (d.next q x) := rfl

@[simp] lemma after_append : after q (ds ++ es) x = after q es (after q ds x) :=
  List.foldl_append

@[simp] lemma passes_nil : Passes q [] x := trivial

@[simp] lemma passes_cons (d : Deed) :
    Passes q (d :: ds) x ↔ d.Allows q x ∧ Passes q ds (d.next q x) := Iff.rfl

lemma passes_append : Passes q (ds ++ es) x ↔ Passes q ds x ∧ Passes q es (after q ds x) := by
  induction ds generalizing x with
  | nil => simp
  | cons d ds ih => simp [ih, and_assoc]

/-! ### Smaller states -/

lemma allows_anti {d : Deed} (hxy : x ≤ y) (h : d.Allows q y) : d.Allows q x := by
  cases d with
  | access a => exact Access.allows_anti hxy h
  | mark p state => trivial
  | forget b => trivial

lemma next_mono (d : Deed) (hxy : x ≤ y) : d.next q x ≤ d.next q y := by
  unfold next
  cases d.effect q with
  | none => exact hxy
  | some k => exact le_refl k

lemma after_mono (hxy : x ≤ y) : after q ds x ≤ after q ds y := by
  induction ds generalizing x y with
  | nil => exact hxy
  | cons d ds ih => exact ih (next_mono d hxy)

lemma passes_anti (hxy : x ≤ y) (h : Passes q ds y) : Passes q ds x := by
  induction ds generalizing x y with
  | nil => trivial
  | cons d ds ih =>
    obtain ⟨hd, hds⟩ := h
    exact ⟨allows_anti hxy hd, ih (next_mono d hxy) hds⟩

lemma after_id_or_const (q : Place) (ds : List Deed) :
    (∀ x, after q ds x = x) ∨ ∃ k, ∀ x, after q ds x = k := by
  induction ds with
  | nil => exact .inl fun _ => rfl
  | cons d ds ih =>
    rcases ih with hid | ⟨k, hk⟩
    · cases hd : d.effect q with
      | none => exact .inl fun x => by rw [after_cons, hid, next, hd]; rfl
      | some k => exact .inr ⟨k, fun x => by rw [after_cons, hid, next, hd]; rfl⟩
    · exact .inr ⟨k, fun x => by rw [after_cons, hk]⟩

lemma after_le_of_le (hx : x ≤ z) (hy : after q ds y ≤ z) : after q ds x ≤ z := by
  rcases after_id_or_const q ds with hid | ⟨k, hk⟩
  · rw [hid]
    exact hx
  · rw [hk] at hy ⊢
    exact hy

/-! ### Deeds of evaluations -/

/-- Whether a deed is an access that puts no new value into its place. -/
def Evaluates (d : Deed) : Prop := ∃ a, d = access a ∧ ∀ p, a ≠ .write p

variable (hds : ∀ d ∈ ds, d.Evaluates)

include hds

/-- What is moved stays so where deeds pass, and is not moved again. -/
lemma after_moved (h : Passes q ds .moved) :
    after q ds .moved = .moved ∧ access (.move q) ∉ ds := by
  induction ds with
  | nil => simp
  | cons d ds ih =>
    obtain ⟨hd, hrest⟩ := h
    obtain ⟨a, rfl, ha⟩ := hds d List.mem_cons_self
    have hds' : ∀ d ∈ ds, d.Evaluates := fun d' hd' => hds d' (List.mem_cons_of_mem _ hd')
    -- A move that touches the place is not allowed while the place is moved.
    have hstay : (access a).next q .moved = .moved ∧ a ≠ .move q := by
      cases a with
      | read p => exact ⟨rfl, by simp⟩
      | lend p kind => exact ⟨rfl, by simp⟩
      | write p => exact absurd rfl (ha p)
      | move p =>
        have hcov : ¬ p.covers q = true := fun hc => hd.2 (.inr hc) rfl
        have hne : q ≠ p := fun he => hcov (by rw [he]; exact Place.covers_refl p)
        refine ⟨by simp [next, effect, hne, hcov], ?_⟩
        intro he
        exact hne (Access.move.inj he).symm
    rw [hstay.1] at hrest
    obtain ⟨hafter, hnot⟩ := ih hds' hrest
    refine ⟨by rw [after_cons, hstay.1, hafter], ?_⟩
    rw [List.mem_cons, not_or]
    exact ⟨fun he => hstay.2 (Deed.access.inj he).symm, hnot⟩

lemma after_of_move_mem (hm : access (.move q) ∈ ds) (h : Passes q ds x) :
    after q ds x = .moved := by
  obtain ⟨before, rest, rfl⟩ := List.append_of_mem hm
  rw [passes_append, passes_cons] at h
  have hnext : (access (.move q)).next q (after q before x) = .moved := by simp [next, effect]
  rw [hnext] at h
  have hrest : ∀ d ∈ rest, d.Evaluates := fun d hd =>
    hds d (List.mem_append_right _ (List.mem_cons_of_mem _ hd))
  rw [after_append, after_cons, hnext]
  exact (after_moved hrest h.2.2).1

/-- An evaluation that passes again from what it left behind moves nothing. -/
lemma move_not_mem_of_passes_again (h : Passes q ds x) (hle : after q ds x ≤ y)
    (hagain : Passes q ds y) : access (.move q) ∉ ds := by
  intro hm
  rw [after_of_move_mem hds hm h, PlaceState.moved_le] at hle
  subst hle
  exact (after_moved hds hagain).2 hm

lemma after_of_move_not_mem (hm : ∀ p, access (.move p) ∉ ds) : after q ds x = x := by
  induction ds generalizing x with
  | nil => rfl
  | cons d ds ih =>
    obtain ⟨a, rfl, ha⟩ := hds d List.mem_cons_self
    have hnext : (access a).next q x = x := by
      cases a with
      | read p => rfl
      | lend p kind => rfl
      | write p => exact absurd rfl (ha p)
      | move p => exact absurd List.mem_cons_self (hm p)
    rw [after_cons, hnext]
    exact ih (fun d' hd' => hds d' (List.mem_cons_of_mem _ hd'))
      (fun p hp => hm p (List.mem_cons_of_mem _ hp))

end Deed

end Ownership
