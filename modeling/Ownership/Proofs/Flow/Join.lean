import Ownership.Proofs.Moves.States
import Mathlib.Data.List.Perm.Basic
import Mathlib.Order.Bounds.Basic
import Mathlib.Order.WithBot

/-!
# Merging is a join

What can be observed of a path is the state of every place, or nothing once the path has returned.
Observations are ordered place by place, with the returned path at the bottom, and a merge is the
least upper bound of what it merges. So paths can be merged in any order, and a place can be used
after a merge exactly if it can be used on both paths.
-/

namespace Ownership

namespace Flow

variable {f g : Flow} {p : Place} {S : Place → MoveSite → Prop}

/-! ### Observations -/

/-- What can be observed of a path: the state of every place, unless the path has returned. -/
def observed (f : Flow) : WithBot (Place → PlaceState) :=
  if f.returned then ⊥ else (f.stateOf : Place → PlaceState)

lemma observed_of_returned (h : f.returned = true) : f.observed = ⊥ := if_pos h

lemma observed_of_not_returned (h : f.returned = false) :
    f.observed = (f.stateOf : Place → PlaceState) :=
  if_neg (by simp [h])

theorem observed_merge (f g : Flow) : (f.merge g).observed = f.observed ⊔ g.observed := by
  cases hf : f.returned with
  | true => rw [merge_of_returned_left hf, observed_of_returned hf, bot_sup_eq]
  | false =>
    cases hg : g.returned with
    | true => rw [merge_of_returned_right hf hg, observed_of_returned hg, sup_bot_eq]
    | false =>
      have hmerge : (f.merge g).returned = false := by rw [returned_merge, hf, Bool.false_and]
      rw [observed_of_not_returned hf, observed_of_not_returned hg, observed_of_not_returned hmerge,
        ← WithBot.coe_sup]
      exact congrArg _ (funext fun p => stateOf_merge hf hg p)

/-! ### Merging many states -/

lemma observed_foldl_merge (f : Flow) (fs : List Flow) :
    (fs.foldl merge f).observed = (f :: fs).foldl (fun x g => x ⊔ g.observed) ⊥ := by
  rw [List.foldl_cons, bot_sup_eq]
  exact (List.foldl_hom observed fun f g => (observed_merge f g).symm).symm

/-- The order in which states are merged cannot be observed. -/
lemma observed_foldl_merge_perm {fs gs : List Flow} (h : (f :: fs).Perm (g :: gs)) :
    (fs.foldl merge f).observed = (gs.foldl merge g).observed := by
  have : RightCommutative fun (x : WithBot (Place → PlaceState)) (f : Flow) => x ⊔ f.observed :=
    ⟨fun x f g => sup_right_comm x f.observed g.observed⟩
  rw [observed_foldl_merge, observed_foldl_merge, h.foldl_eq]

/-! ### Usability after a merge -/

lemma usable_merge_iff (hf : f.returned = false) (hg : g.returned = false) :
    (f.merge g).Usable p ↔ f.Usable p ∧ g.Usable p := by
  constructor
  · exact fun h => ⟨h.of_le (below_merge_left f g hf).2, h.of_le (below_merge_right f g hg).2⟩
  · rintro ⟨hfp, hgp⟩
    have hret : (f.merge g).returned = false := by rw [returned_merge, hf, Bool.false_and]
    -- Every state after the merge is a state on one of the paths.
    refine Access.usable_iff.mpr fun q => ?_
    rcases merge_attained hret q with ⟨-, h⟩ | ⟨-, h⟩
    · exact h ▸ Access.usable_iff.mp hfp q
    · exact h ▸ Access.usable_iff.mp hgp q

/-! ### Move sites after a merge -/

/-- Whether move sites are recorded for the moved places and for no others. -/
def Sited (f : Flow) : Prop := ∀ p, p ∈ f.sites.keys ↔ f.stateOf p = .moved

lemma Sited.coherent (h : f.Sited) (hS : ∀ p site, f.sites.get? p = some site → S p site) :
    f.Coherent (fun _ _ => True) S where
  sited p := by rw [← Registry.mem_keys_iff, h p, stateOf_eq_moved_iff]
  states _ _ _ := trivial
  sites := hS

lemma Coherent.isSited {R : Place → PlaceState → Prop} (h : f.Coherent R S) : f.Sited := by
  intro p
  rw [Registry.mem_keys_iff, h.sited p, stateOf_eq_moved_iff]

lemma coherent_merge_of_sited (hf : f.Sited) (hg : g.Sited) :
    (f.merge g).Coherent (fun _ _ => True)
      fun p site => f.sites.get? p = some site ∨ g.sites.get? p = some site :=
  (hf.coherent fun _ _ => .inl).merge (hg.coherent fun _ _ => .inr)

end Flow

/-! ### The arms of a selection -/

namespace Context

variable {c : Context}

/-- The states after the arms of a selection, each on its own, and the session after the last
arm. -/
def armExits (c : Context) (sel : Selection) (place : Option Place) (entry : Flow) (p : Int) :
    List Arm → Session → Except Fault (List Flow × Session)
  | [], s => .ok ([], s)
  | a :: rest, s => do
    let s ← c.walkArm sel place entry p a s
    let k ← c.armExits sel place entry (p + 3 + Stmt.widthAll a.body.stmts) rest s
    return (s.flow :: k.1, k.2)

/-- The walk of the arms merges the states after them, from the first to the last. -/
lemma walkArms_eq_merge (sel : Selection) (place : Option Place) (entry : Flow) (p : Int)
    (arms : List Arm) (f : Flow) (s : Session) :
    c.walkArms sel place entry p arms (some f) s =
      (fun k => k.2.withFlow (k.1.foldl Flow.merge f)) <$> c.armExits sel place entry p arms s := by
  induction arms generalizing p f s with
  | nil => rfl
  | cons a rest ih =>
    rw [walkArms_cons, armExits, map_bind]
    refine bind_congr fun m => ?_
    rw [ih, map_bind, ← bind_pure_comp]
    rfl

lemma length_armExits {sel : Selection} {place : Option Place} {entry : Flow} {p : Int}
    {arms : List Arm} {s : Session} {k : List Flow × Session}
    (h : c.armExits sel place entry p arms s = .ok k) : k.1.length = arms.length := by
  induction arms generalizing p s k with
  | nil => rw [← Except.ok.inj h, List.length_nil, List.length_nil]
  | cons a rest ih =>
    obtain ⟨m, -, h⟩ := bind_eq_ok.mp h
    obtain ⟨k', hk', h⟩ := bind_eq_ok.mp h
    rw [← Except.ok.inj h, List.length_cons, List.length_cons, ih hk']

/-- After a selection with arms the state is the merge of the states after them. -/
lemma flow_of_walkStmt_select {p : Int} {scrutinee : Expr} {a : Arm} {rest : List Arm}
    {type : Option TypeId} {loc : Span} {s s' : Session}
    (h : c.walkStmt p (.select scrutinee (a :: rest) type loc) s = .ok s') :
    ∃ place m f fs last, c.scrutinize p loc scrutinee (s.begin loc) = .ok (place, m) ∧
      c.armExits ⟨scrutinee, type, p⟩ place m.flow (p + 1) (a :: rest) m = .ok (f :: fs, last) ∧
      s'.flow = fs.foldl Flow.merge f := by
  rw [walkStmt] at h
  obtain ⟨⟨place, m⟩, hm, h⟩ := bind_eq_ok.mp h
  obtain ⟨t, ht, h⟩ := bind_eq_ok.mp h
  rw [walkArms_cons] at ht
  obtain ⟨m₁, hm₁, ht⟩ := bind_eq_ok.mp ht
  rw [walkArms_eq_merge] at ht
  obtain ⟨⟨fs, last⟩, hfs, rfl⟩ := map_eq_ok.mp ht
  cases h
  refine ⟨place, m, m₁.flow, fs, last, hm, ?_, rfl⟩
  exact bind_eq_ok.mpr ⟨m₁, hm₁, bind_eq_ok.mpr ⟨_, hfs, rfl⟩⟩

/-- Merging is a join. What can be observed of a merge is the least upper bound of what can be
observed of the two paths, so a merge is commutative, associative and idempotent as far as can be
observed, and after a selection the states after the arms may be merged in any order. A place is
refused after a merge of two paths that have not returned exactly if it is refused on one of them.
If move sites are recorded for the moved places on both paths, so they are after the merge, and
each of them comes from one of the paths. -/
theorem merges_are_joins :
    (∀ f g : Flow, IsLUB {f.observed, g.observed} (f.merge g).observed) ∧
    (∀ f g : Flow, (f.merge g).observed = (g.merge f).observed) ∧
    (∀ f g h : Flow, ((f.merge g).merge h).observed = (f.merge (g.merge h)).observed) ∧
    (∀ f : Flow, (f.merge f).observed = f.observed) ∧
    (∀ (c : Context) (p : Int) (scrutinee : Expr) (a : Arm) (rest : List Arm) (type : Option TypeId)
      (loc : Span) (s s' : Session),
      c.walkStmt p (.select scrutinee (a :: rest) type loc) s = .ok s' →
      ∃ place m exits last, c.scrutinize p loc scrutinee (s.begin loc) = .ok (place, m) ∧
        c.armExits ⟨scrutinee, type, p⟩ place m.flow (p + 1) (a :: rest) m = .ok (exits, last) ∧
        exits.length = rest.length + 1 ∧ ∀ (f : Flow) (fs : List Flow), exits.Perm (f :: fs) →
          s'.flow.observed = (fs.foldl Flow.merge f).observed) ∧
    (∀ (f g : Flow) (p : Place), f.returned = false → g.returned = false →
      ((f.merge g).refusal? p ≠ none ↔ f.refusal? p ≠ none ∨ g.refusal? p ≠ none)) ∧
    ∀ f g : Flow, f.Sited → g.Sited → (f.merge g).Sited ∧
      ∀ p site, (f.merge g).sites.get? p = some site →
        f.sites.get? p = some site ∨ g.sites.get? p = some site := by
  refine ⟨fun f g => ?_, fun f g => ?_, fun f g h => ?_, fun f => ?_, ?_, ?_, fun f g hf hg => ?_⟩
  · rw [Flow.observed_merge]
    exact isLUB_pair
  · rw [Flow.observed_merge, Flow.observed_merge, sup_comm]
  · simp only [Flow.observed_merge, sup_assoc]
  · rw [Flow.observed_merge, sup_idem]
  · intro c p scrutinee a rest type loc s s' h
    obtain ⟨place, m, f, fs, last, hm, hexits, hflow⟩ := flow_of_walkStmt_select h
    refine ⟨place, m, f :: fs, last, hm, hexits, length_armExits hexits, fun g gs horder => ?_⟩
    rw [hflow, Flow.observed_foldl_merge_perm horder]
  · intro f g p hf hg
    simp only [ne_eq, Flow.refusal?_eq_none_iff, Flow.usable_merge_iff hf hg, not_and_or]
  · have hmerge := Flow.coherent_merge_of_sited hf hg
    exact ⟨hmerge.isSited, hmerge.sites⟩

end Context

/-! ### Arms that leave different states -/

/-- Takes `s` in one arm and returns in the other one. -/
def Stmt.parting : Stmt :=
  .select (.var "k" .unknown)
    [.mk none (.mk [.declare "t" none (.var "s" .unknown) false .unknown] .unknown)
      [] false .unknown,
      .mk none (.mk [.ret .absent .unknown] .unknown) [] false .unknown] none .unknown

def Function.parting : Function where
  name := "parting"
  params := [⟨"k", none, false, .unknown⟩, ⟨"s", none, false, .unknown⟩]
  body := .mk [.parting] .unknown

namespace Context

/-- The states after the two arms may be merged in the opposite order. A path on which a place was
moved, merged with a path on which nothing was, refuses the place and knows where it was moved. -/
theorem merges_are_joins_parting : ∃ (c : Context) (s s' : Session) (f g : Flow),
    build {} .parting {} = .ok c ∧ c.initial = .ok s ∧ c.walkStmt 3 .parting s = .ok s' ∧
    (∃ place m last, c.armExits ⟨.var "k" .unknown, none, 3⟩ place m.flow 4 Stmt.parting.arms m =
      .ok ([f, g], last)) ∧ s'.flow.observed = (g.merge f).observed ∧
    ∃ (moved : Flow) (p : Place), moved.returned = false ∧ moved.refusal? p ≠ none ∧ moved.Sited ∧
      Flow.Sited {} ∧ (moved.merge {}).refusal? p ≠ none ∧ (moved.merge {}).Sited := by
  have hok : ((build {} .parting {} >>= fun c => (c, ·) <$> c.initial).toOption.any fun k =>
      (k.1.walkStmt 3 .parting k.2).toOption.any fun s =>
        k.1.tree.bindings.any fun b => s.flow.isMoved (.ofBinding b)) = true := by
    decide +kernel
  obtain ⟨k, hk, htest⟩ := Fault.exists_ok hok
  obtain ⟨c, hbuild, hk⟩ := bind_eq_ok.mp hk
  obtain ⟨s, hinitial, rfl⟩ := map_eq_ok.mp hk
  obtain ⟨s', hs', -⟩ := Fault.exists_ok htest
  obtain ⟨-, -, -, -, hselect, hrefused, hsites⟩ := merges_are_joins
  obtain ⟨place, m, exits, last, -, hexits, hlength, horder⟩ := hselect c 3 _ _ _ _ _ s s' hs'
  obtain ⟨f, g, rfl⟩ := List.length_eq_two.mp hlength
  have hempty : Flow.Coherent (fun _ _ => True) (fun _ _ => True) {} :=
    ⟨by simp, fun _ _ _ => trivial, fun _ _ _ => trivial⟩
  have hmoved : (Flow.moveOut {} (.ofBinding { name := "s", index := 0 }) ⟨5, .unknown⟩).Sited :=
    (hempty.moveOut trivial trivial).isSited
  have href : (Flow.moveOut {} (.ofBinding { name := "s", index := 0 }) ⟨5, .unknown⟩).refusal?
      (.ofBinding { name := "s", index := 0 }) ≠ none := by decide
  exact ⟨c, s, s', f, g, hbuild, hinitial, hs', ⟨place, m, last, hexits⟩,
    horder g [f] (List.Perm.swap g f []), _, _, rfl, href, hmoved, hempty.isSited,
    (hrefused _ {} _ rfl rfl).mpr (.inl href), (hsites _ {} hmoved hempty.isSited).1⟩

end Context

end Ownership
