import Ownership.Proofs.Control.Sweeps
import Ownership.Proofs.Loans.Paths
import Ownership.Proofs.Loans.Spread
import Ownership.Proofs.Scope.Enclosing

/-!
# Reads of dangling references

When a scope ends, the loans of its bindings must not be held outside of it. A holder counts as
harmless there if the text defines it again between the position where it got the loan and the end
of the scope. This is all that stands between an accepted function and a dangling read: a path on
which a reference is read after its referent is gone avoids such a definition. A definition on one
of two ways is enough to hide a dangling read on the other one.
-/

namespace Ownership

open List

/-- Whether the text defines a holder again up to a position. -/
def ScopeTree.Redefines (t : ScopeTree) (h : Holder) (p : Int) : Prop :=
  ∃ d ∈ t.defsOf h.binding, h.since < d ∧ d ≤ p

/-- Whether a holder is declared in a scope that another scope does not enclose. -/
def ScopeTree.Outside (t : ScopeTree) (S : Scope) (h : Holder) : Prop :=
  (t.owner? h.binding).any S.encloses = false

lemma ScopeTree.not_stillHolds {t : ScopeTree} {h : Holder} {p q : Int} (hr : t.Redefines h p)
    (hpq : p < q) : t.stillHolds h.binding h.since q = false := by
  obtain ⟨d, hd, hsince, hle⟩ := hr
  rw [stillHolds, Bool.not_eq_false', any_eq_true]
  exact ⟨d, hd, by simp only [Bool.and_eq_true, decide_eq_true_eq]; omega⟩

namespace Context

variable {c : Context} {S : Scope} {x e : Event} {before after : List Event} {A A' : Loan}
  {s s' u m : Session} {h : Holder} {once : Prop}

/-! ### Checks at the end of a scope -/

lemma danglesAt_of_quiet {ls : List Loan} (h : c.checkDangling S ls s = .ok s')
    (hquiet : ¬s'.Dangles) (hs : s.dangling = []) : ∀ l ∈ ls, c.danglesAt S [] l = .ok false := by
  induction ls generalizing s with
  | nil => exact fun l hl => nomatch hl
  | cons l rest ih =>
    unfold checkDangling at h
    obtain ⟨dangles, hdangles, h⟩ := bind_eq_ok.mp h
    rw [hs] at hdangles
    cases dangles with
    | true =>
      refine absurd (Session.Dangles.of_prefix (dangled_checkDangling h).still.findings ?_) hquiet
      exact Session.dangles_report _ rfl
    | false => exact forall_mem_cons.mpr ⟨hdangles, ih h hs⟩

lemma not_outlives_of_danglesAt (hscope : A.place.base.scope = S.id)
    (hplace : c.typing.refPrefix? A.place = .ok none) (h : c.danglesAt S [] A = .ok false) :
    c.outlives S A = false := by
  unfold danglesAt at h
  rw [if_neg (by simp [hscope]), hplace] at h
  exact Except.ok.inj h

/-- At the end of a scope that reports nothing, no loan of a binding of the scope outlives it. -/
lemma not_outlives_of_exit (hnests : c.tree.Nests c.function.events) (hS : S ∈ c.tree.scopes)
    (hk : x.kind = .exit) (hlabel : x.label = S.start) (h : c.execute x u = .ok m)
    (hret : u.flow.returned = false) (hquiet : ¬m.Dangles) (hu : u.dangling = []) (hA : A ∈ u.loans)
    (hscope : A.place.base.scope = S.id) (hplace : c.typing.refPrefix? A.place = .ok none) :
    c.outlives S A = false := by
  obtain ⟨scope, m', hscopeOf, hfinish, rfl⟩ := execute_exit hk h
  rw [hlabel, hnests.scopeOf_start hS] at hscopeOf
  cases hscopeOf
  rw [finishScope, hret, if_neg Bool.false_ne_true] at hfinish
  have hdangles := danglesAt_of_quiet hfinish hquiet (by rw [Session.dangling_destroy, hu]) A
    (by rwa [Session.loans_destroy])
  exact not_outlives_of_danglesAt hscope hplace hdangles

/-- If a loan does not outlive a scope, its holders outside are defined again before the scope
ends. -/
lemma redefines_of_not_outlives (hoptions : c.options.danglingRequiresLaterUse = false)
    (h : c.outlives S A = false) {x : Holder} (hx : x ∈ A.holders) (hout : c.tree.Outside S x) :
    c.tree.Redefines x S.stop := by
  have hholder := any_eq_false.mp h x hx
  have hout' : (c.tree.owner? x.binding).any S.encloses = false := hout
  simp only [hout', hoptions, Bool.not_false, Bool.true_and, Bool.true_or, Bool.and_true,
    Bool.not_eq_true', Bool.not_eq_false, any_eq_true, Bool.and_eq_true,
    decide_eq_true_eq] at hholder
  exact hholder

/-! ### Holders outside -/

/-- Whether an event that a walk visits is the end of a scope. -/
structure Ends (c : Context) (S : Scope) (x : Event) : Prop where
  scope : S ∈ c.tree.scopes
  kind : x.kind = .exit
  label : x.label = S.start
  pos : x.pos = S.stop
  visited : x ∈ c.function.skeleton.visited

lemma eq_of_pos_visited (htree : ScopeTree.ofFunction c.function = .ok c.tree)
    (he : e ∈ c.function.skeleton.visited) (hx : x ∈ c.function.skeleton.visited)
    (hpos : e.pos = x.pos) : e = x := by
  have hmem : ∀ {e}, e ∈ c.function.skeleton.visited → e ∈ c.function.events := fun he =>
    c.function.mem_events_of_skeleton (Skeleton.mem_events_of_visited _ he)
  exact (ScopeTree.nests_of_ofFunction htree).numbered.eq_of_pos (hmem he) (hmem hx) hpos

/-- Whether a holder got its value at one of some events, before the end of a scope, and is defined
again before the end if that is among the events since then. -/
def Settled (c : Context) (S : Scope) (x : Event) (before : List Event) (h : Holder) : Prop :=
  ∃ earlier e later, before = earlier ++ e :: later ∧ e.pos = h.since ∧ e.pos < S.stop ∧
    (x ∈ later → c.tree.Redefines h S.stop)

/-- Whether a loan starts before the end of a scope and its holders outside are settled. -/
structure Watched (c : Context) (S : Scope) (x : Event) (before : List Event) (A : Loan) :
    Prop where
  start : A.start < S.stop
  bindings : ∀ h ∈ A.holders, h.binding ∈ c.tree.bindings
  outside : ∀ h ∈ A.holders, c.tree.Outside S h → c.Settled S x before h

lemma Settled.append (hh : c.Settled S x before h) (hx : e = x → c.tree.Redefines h S.stop) :
    c.Settled S x (before ++ [e]) h := by
  obtain ⟨earlier, e', later, rfl, hpos, hlt, hlater⟩ := hh
  refine ⟨earlier, e', later ++ [e], by simp, hpos, hlt, fun hmem => ?_⟩
  rcases mem_append.mp hmem with hmem | hmem
  · exact hlater hmem
  · exact hx (mem_singleton.mp hmem).symm

/-- Going on keeps a loan watched, if the end of the scope is passed with the holders defined
again. -/
lemma Watched.append (h : c.Watched S x before A)
    (hx : e = x → ∀ h ∈ A.holders, c.tree.Outside S h → c.tree.Redefines h S.stop) :
    c.Watched S x (before ++ [e]) A where
  start := h.start
  bindings := h.bindings
  outside y hy hout := (h.outside y hy hout).append fun heq => hx heq y hy hout

lemma Settled.of_comes {named : Binding → Prop} (hh : h.Comes c.tree named e.pos)
    (hlt : e.pos < S.stop) : c.Settled S x (before ++ [e]) h :=
  ⟨before, e, [], rfl, hh.1.symm, hlt, fun hx => nomatch hx⟩

section Steps

variable (htree : ScopeTree.ofFunction c.function = .ok c.tree) (hends : c.Ends S x)
  (hvisited : c.function.skeleton.visited = before ++ e :: after) (hk : e.kind = .step)

include htree hvisited hk

lemma mem_bindings_of_comes {h : Holder}
    (hh : h.Comes c.tree (fun b => c.Names e (.ofBinding b)) e.pos) :
    h.binding ∈ c.tree.bindings := by
  have he : e ∈ c.function.skeleton.events :=
    Skeleton.mem_events_of_visited _ (by rw [hvisited]; simp)
  rcases hh.2 with hdeclared | hnames
  · exact (mem_filter.mp hdeclared).1
  · exact (hnames.alive (ScopeTree.nests_of_ofFunction htree) he hk).mem

include hends

lemma Watched.of_arises (hscope : A.place.base.scope = S.id)
    (h : A.Arises c.tree (fun b => c.Names e (.ofBinding b)) e.pos) :
    c.Watched S x (before ++ [e]) A := by
  have hnests := ScopeTree.nests_of_ofFunction htree
  have he : e ∈ c.function.skeleton.events :=
    Skeleton.mem_events_of_visited _ (by rw [hvisited]; simp)
  have hlt : e.pos < S.stop := by
    have halive : c.tree.Alive e.pos A.place.base := h.base.alive hnests he hk
    have hle := halive.upTo
    rw [ScopeTree.ownerStop, ScopeTree.owner?, hscope, hnests.getElem?_id hends.scope,
      Option.map_some, Option.getD_some] at hle
    have hne := hnests.stop_ne (c.function.mem_events_of_skeleton he) (by simp [hk]) hends.scope
    omega
  exact ⟨h.start ▸ hlt, fun y hy => mem_bindings_of_comes htree hvisited hk (h.comes y hy),
    fun y hy _ => .of_comes (h.comes y hy) hlt⟩

/-- A watched loan is at hand only before the end of the scope: a binding that is named behind the
end is declared outside, so it has been defined again since it got the loan. -/
lemma Watched.lt_stop (h : c.Watched S x before A)
    (hA : A.AtHand c.tree (fun b => c.Names e (.ofBinding b)) e.pos) : e.pos < S.stop := by
  have hnests := ScopeTree.nests_of_ofFunction htree
  have he : e ∈ c.function.skeleton.events :=
    Skeleton.mem_events_of_visited _ (by rw [hvisited]; simp)
  have hne := hnests.stop_ne (c.function.mem_events_of_skeleton he) (by simp [hk]) hends.scope
  rcases hA with hstart | ⟨b, hb, hheld⟩
  · rw [← hstart]
    exact h.start
  · by_contra hge
    have halive : c.tree.Alive e.pos b := hb.alive hnests he hk
    obtain ⟨y, hy, hholds⟩ := any_eq_true.mp hheld
    simp only [Bool.and_eq_true, decide_eq_true_eq] at hholds
    obtain rfl : y.binding = b := hnests.eq_of_index (h.bindings y hy) halive.mem hholds.1
    obtain ⟨X, hX, howner, -, hstop, -⟩ := hnests.exists_owner (h.bindings y hy)
    have hout : c.tree.Outside S y := by
      rw [ScopeTree.Outside, howner, Option.any_some, Bool.eq_false_iff]
      intro henc
      have hle := ScopeTree.stop_le_of_encloses htree hends.scope hX henc
      have hup := halive.upTo
      omega
    obtain ⟨earlier, e', later, rfl, hpos, hlt, hlater⟩ := h.outside y hy hout
    have hmem : x ∈ later := by
      obtain ⟨hi, hspans⟩ := c.function.spans_skeleton
      refine hspans.sweep_visited.crosses hends.visited
        (fun d hd hdx => eq_of_pos_visited htree hd hends.visited hdx) hvisited ?_ ?_
      · rw [hends.pos]
        exact hlt
      · rw [hends.pos]
        omega
    have hgone := ScopeTree.not_stillHolds (hlater hmem) (show S.stop < e.pos by omega)
    rw [hgone] at hholds
    cases hholds.2

lemma Watched.spreads (h : c.Watched S x before A)
    (hA : A.Spreads c.tree (fun b => c.Names e (.ofBinding b)) e.pos A') :
    c.Watched S x (before ++ [e]) A' := by
  have hne : e ≠ x := by
    rintro rfl
    rw [hends.kind] at hk
    cases hk
  refine ⟨hA.start ▸ h.start, fun y hy => ?_, fun y hy hout => ?_⟩
  · rcases hA.comes y hy with hy | ⟨-, hcomes⟩
    · exact h.bindings y hy
    · exact mem_bindings_of_comes htree hvisited hk hcomes
  · rcases hA.comes y hy with hy | ⟨hhand, hcomes⟩
    · exact (h.outside y hy hout).append fun heq => absurd heq hne
    · exact .of_comes hcomes (h.lt_stop htree hends hvisited hk hhand)

end Steps

/-! ### Along the walk -/

/-- Whether nothing has been found to dangle and the loans of the bindings of a scope are
watched. -/
structure Guards (c : Context) (S : Scope) (x : Event) (before : List Event) (s : Session) :
    Prop where
  booked : Loan.Booked s.loans
  dangling : s.dangling = []
  watched : ∀ A ∈ s.loans, A.place.base.scope = S.id → c.typing.refPrefix? A.place = .ok none →
    c.Watched S x before A

lemma Guards.same (h : c.Guards S x before s) (hsame : s.Same once s') :
    c.Guards S x before s' where
  booked := hsame.loans ▸ h.booked
  dangling := hsame.dangling.trans h.dangling
  watched A hA := h.watched A (hsame.loans ▸ hA)

variable (hc : c.tracksLoans = true) (htree : ScopeTree.ofFunction c.function = .ok c.tree)
  (hoptions : c.options.danglingRequiresLaterUse = false) (hends : c.Ends S x)

include hc htree hoptions hends

/-- While nothing dangles, the guard over a scope holds from event to event. -/
lemma Guards.execute (hvisited : c.function.skeleton.visited = before ++ e :: after)
    (hret : e = x → u.flow.returned = false) (h : c.Guards S x before u)
    (hm : c.execute e u = .ok m) (hquiet : ¬m.Dangles) : c.Guards S x (before ++ [e]) m where
  booked := by
    obtain ⟨as, hdeals, -⟩ := deals_execute hc h.booked hm
    exact hdeals.booked hc h.booked
  dangling := ((spreads_execute hc h.booked hm).dangling.resolve_right hquiet).trans h.dangling
  watched A hA hscope hplace := by
    cases hk : e.kind with
    | step =>
      rcases (spreads_execute hc h.booked hm).loans A hA with ⟨A₀, hA₀, hspreads⟩ | harises
      · rw [hspreads.place] at hscope hplace
        exact (h.watched A₀ hA₀ hscope hplace).spreads htree hends hvisited hk hspreads
      · exact .of_arises htree hends hvisited hk hscope harises
    | enter =>
      obtain ⟨scope, -, rfl⟩ := execute_enter hk hm
      refine (h.watched A hA hscope hplace).append fun heq => ?_
      rw [heq, hends.kind] at hk
      cases hk
    | exit =>
      rw [(idle_execute (by simp [hk]) hm).loans] at hA
      refine (h.watched A hA hscope hplace).append ?_
      rintro rfl y hy hout
      refine redefines_of_not_outlives hoptions ?_ hy hout
      exact not_outlives_of_exit (ScopeTree.nests_of_ofFunction htree) hends.scope hk hends.label hm
        (hret rfl) hquiet h.dangling hA hscope hplace

/-- All along a walk on which nothing dangles the loans of a scope are watched. -/
lemma Trail.guards {vs : List (Event × Session)} (h : c.Trail once vs s s')
    (hvisited : c.function.skeleton.visited = before ++ vs.map Prod.fst)
    (hret : ∀ v ∈ vs, v.1 = x → v.2.flow.returned = false) (hquiet : ¬s'.Dangles)
    (hs : c.Guards S x before s) : c.Guards S x c.function.skeleton.visited s' := by
  induction vs generalizing before s with
  | nil =>
    rw [hvisited, map_nil, append_nil]
    exact hs.same h
  | cons v vs ih =>
    obtain ⟨e, u⟩ := v
    obtain ⟨hsame, m, hm, h⟩ := h
    have hm' : ¬m.Dangles := fun hd => hquiet (hd.of_prefix (h.findings hc))
    have hstep := (hs.same hsame).execute hc htree hoptions hends hvisited
      (hret (e, u) mem_cons_self) hm hm'
    exact ih h (by simp [hvisited]) (fun v hv => hret v (mem_cons_of_mem _ hv)) hstep

omit hc htree hoptions hends

lemma dangling_initial (h : c.initial = .ok s) : s.dangling = [] := by
  obtain ⟨root, -, rfl⟩ := map_eq_ok.mp h
  unfold start
  rw [foldl_keeps Session.dangling]
  exact fun _ _ => rfl

/-! ### Functions -/

section Functions

variable {program : Program} {f : Function} {options : Options}

lemma options_of_build (h : build program f options = .ok c) : c.options = options := by
  obtain ⟨tree, typing, -, -, rfl⟩ := build_cases h
  rfl

lemma ends_of_path (htree : ScopeTree.ofFunction c.function = .ok c.tree) (hS : S ∈ c.tree.scopes)
    (hx : c.function.skeleton.OnPath x) (hk : x.kind = .exit) (hpos : x.pos = S.stop) :
    c.Ends S x := by
  have hnests := ScopeTree.nests_of_ofFunction htree
  obtain ⟨e, he, -, hlabel, hstop, -⟩ := hnests.left S hS
  have hmem := c.function.mem_events_of_skeleton (Skeleton.mem_events_of_visited _ hx.mem_visited)
  obtain rfl := hnests.numbered.eq_of_pos he hmem (hstop.trans hpos.symm)
  exact ⟨hS, hk, hlabel, hpos, hx.mem_visited⟩

/-- If nothing is found to dangle, what is held outside a scope whose end stands on some path is
defined again before the end. -/
lemma redefines_of_run (hbuild : build program f options = .ok c) (hrun : c.run = .ok s)
    (hoptions : options.danglingRequiresLaterUse = false) (hquiet : ¬s.Dangles) (hA : A ∈ s.loans)
    (hplace : c.typing.refPrefix? A.place = .ok none) (howner : c.tree.owner? A.place.base = some S)
    {h : Holder} (hh : h ∈ A.holders) (hout : c.tree.Outside S h)
    (hx : c.function.skeleton.OnPath x) (hk : x.kind = .exit) (hpos : x.pos = S.stop) :
    c.tree.Redefines h S.stop := by
  obtain ⟨hc, hr, hf⟩ := build_fields hbuild
  have htree : ScopeTree.ofFunction c.function = .ok c.tree := hf ▸ tree_of_build hbuild
  have hnests := ScopeTree.nests_of_ofFunction htree
  have hscope : A.place.base.scope = S.id := (hnests.known _ S howner).1.symm
  have hends := ends_of_path htree (mem_of_getElem? howner) hx hk hpos
  obtain ⟨hi, hspans⟩ := c.function.spans_skeleton
  obtain ⟨s₀, s₁, h₀, h₁, hexit⟩ := run_cases hrun
  obtain ⟨hloans₀, hret₀, -⟩ := initial_fields h₀
  obtain ⟨scope, -, hexit⟩ := bind_eq_ok.mp hexit
  have hidle := idle_exitScope hexit
  have hguards : c.Guards S x c.function.skeleton.visited s₁ := by
    have htrail := Skeleton.walk_trail hr False c.function.skeleton (fun h => h.elim) h₁
    have hvisited :
        c.function.skeleton.visited = [] ++ (c.function.skeleton.visits c s₀).map Prod.fst :=
      (Skeleton.map_fst_visits hc hr _ h₁ hret₀).symm
    have hopts : c.options.danglingRequiresLaterUse = false := by rwa [options_of_build hbuild]
    refine htrail.guards hc htree hopts hends hvisited ?_ ?_ ?_
    · rintro ⟨e, u⟩ hv rfl
      exact hx.returned_of_exit hk hc hr hspans h₁ hret₀ hv
    · exact fun hd => hquiet (hd.of_prefix hidle.findings)
    · exact ⟨hloans₀ ▸ .nil, dangling_initial h₀, by simp [hloans₀]⟩
  have hwatched := hguards.watched A (hidle.loans ▸ hA) hscope hplace
  obtain ⟨earlier, e, later, hvisited, -, hlt, hlater⟩ := hwatched.outside h hh hout
  refine hlater (hspans.sweep_visited.mem_after hends.visited
    (fun d hd hdx => eq_of_pos_visited htree hd hends.visited hdx) hvisited ?_)
  rwa [hends.pos]

end Functions

/-- Whether events of a path lead from the position where a holder got its value through the normal
end of a scope to a position where the holder is read, with no definition of it in between. -/
structure LeavesAndReads (c : Context) (S : Scope) (h : Holder) (seg : List Event) (u : Int) : Prop
    extends c.LeadsToRead h seg u where
  leaves : ∃ e ∈ seg, e.kind = .exit ∧ e.pos = S.stop

/-- In a function in which nothing is found to dangle, a path that leaves the scope of a borrowed
binding and then reads a reference that is declared outside avoids a definition of the reference.
The definition stands in the text between the position where the reference got the loan and the end
of the scope. -/
theorem dangling_read_avoids_definition {program : Program} {f : Function} {options : Options}
    {c : Context} {s : Session} (hbuild : build program f options = .ok c) (hrun : c.run = .ok s)
    (hoptions : options.danglingRequiresLaterUse = false)
    (hquiet : ∀ x ∈ s.findings, x.violation.isDangling = false) {A : Loan} (hA : A ∈ s.loans)
    (hplace : c.typing.refPrefix? A.place = .ok none) {S : Scope}
    (howner : c.tree.owner? A.place.base = some S) {h : Holder} (hh : h ∈ A.holders)
    (hout : (c.tree.owner? h.binding).any S.encloses = false) {seg : List Event} {u : Int}
    (hseg : c.LeavesAndReads S h seg u) :
    ∃ d ∈ c.tree.defsOf h.binding, h.since < d ∧ d ≤ S.stop ∧
      ∀ e ∈ seg.tail.dropLast, e.pos ≠ d := by
  have hnone : ¬s.Dangles := by
    rintro ⟨x, hx, hdangling⟩
    rw [hquiet x hx] at hdangling
    cases hdangling
  obtain ⟨before, after, r, hπ⟩ := hseg.path
  obtain ⟨x, hx, hk, hpos⟩ := hseg.leaves
  have hmem : x ∈ before ++ seg ++ after := by simp [hx]
  obtain ⟨d, hd, hsince, hle⟩ :=
    redefines_of_run hbuild hrun hoptions hnone hA hplace howner hh hout ⟨_, _, hπ, hmem⟩ hk hpos
  exact ⟨d, hd, hsince, hle, fun e he heq => hseg.keeps e he (heq ▸ hd)⟩

end Context

/-! ### A definition on one of two ways -/

/-- Lends a text of an inner block to a reference outside of it, which gets another loan on one of
two ways. -/
def Function.lettingGo : Function where
  name := "lettingGo"
  params := [⟨"c", some ⟨2⟩, false, .unknown⟩, ⟨"a", some ⟨1⟩, false, .unknown⟩]
  body := .mk [.declare "r" none (.borrow (.var "a" .unknown) false .unknown) true .unknown,
    .block (.mk [.declare "s" none (.literal (.text "s") .unknown) false .unknown,
      .assign (.var "r" .unknown) (.borrow (.var "s" .unknown) false .unknown) .unknown,
      .branch (.var "c" .unknown)
        (.mk [.assign (.var "r" .unknown) (.borrow (.var "a" .unknown) false .unknown) .unknown]
          .unknown)
        none .unknown] .unknown),
    .evaluate (.var "r" .unknown) .unknown] .unknown

lemma Function.path_lettingGo : ∃ before seg, Function.lettingGo.Path (before ++ seg ++ []) ∧
    seg.map Event.pos = [6, 7, 11, 12] ∧ ∃ e ∈ seg, e.kind = .exit ∧ e.pos = 11 := by
  refine ⟨[_, _, _], [_, _, _, _], ⟨false, .inr ⟨[_], _, ⟨rfl, rfl⟩, .inr ⟨_, [_], ⟨[_, _, _],
    .inr ⟨[_], _, ⟨rfl, rfl⟩,
      .inr ⟨[_], _, ⟨rfl, rfl⟩, .inr ⟨[_], [], .inr ⟨[_], [], ⟨rfl, rfl⟩,
      .inr ⟨rfl, rfl⟩, rfl⟩, ⟨rfl, rfl⟩, rfl⟩, rfl⟩, rfl⟩, rfl⟩,
    .inr ⟨[_], [], ⟨rfl, rfl⟩, ⟨rfl, rfl⟩, rfl⟩, rfl⟩, rfl⟩⟩, rfl, ?_⟩
  exact ⟨_, .tail _ (.tail _ (.head _)), rfl, rfl⟩

namespace Context

lemma exists_loan_lettingGo : ∃ c s A S h, build { types := .texts } .lettingGo {} = .ok c ∧
    c.run = .ok s ∧ (∀ x ∈ s.findings, x.violation.isDangling = false) ∧ A ∈ s.loans ∧
    c.typing.refPrefix? A.place = .ok none ∧ c.tree.owner? A.place.base = some S ∧ h ∈ A.holders ∧
    (c.tree.owner? h.binding).any S.encloses = false ∧ h.since = 6 ∧ S.stop = 11 ∧
    c.tree.usesOf h.binding = [12] ∧ c.tree.defsOf h.binding = [3, 6, 9] := by
  have hok : ((build { types := .texts } .lettingGo {} >>= fun c => (c, ·) <$> c.run).toOption.any
      fun (c, s) => decide (∀ x ∈ s.findings, x.violation.isDangling = false) && s.loans.any
        fun A =>
        (c.typing.refPrefix? A.place).toOption.any Option.isNone &&
        (c.tree.owner? A.place.base).any fun S => A.holders.any fun h =>
          decide ((c.tree.owner? h.binding).any S.encloses = false ∧ h.since = 6 ∧ S.stop = 11 ∧
            c.tree.usesOf h.binding = [12] ∧ c.tree.defsOf h.binding = [3, 6, 9])) = true := by
    decide +kernel
  obtain ⟨c, s, hbuild, hrun, htest⟩ := exists_run_of_test hok
  obtain ⟨hquiet, htest⟩ := (Bool.and_eq_true _ _).mp htest
  obtain ⟨A, hA, htest⟩ := any_eq_true.mp htest
  obtain ⟨hplace, htest⟩ := (Bool.and_eq_true _ _).mp htest
  obtain ⟨behind, hplace, hnone⟩ := Fault.exists_ok hplace
  rw [Option.isNone_iff_eq_none.mp hnone] at hplace
  obtain ⟨S, howner, htest⟩ := (Option.any_eq_true _ _).mp htest
  obtain ⟨h, hh, htest⟩ := any_eq_true.mp htest
  exact ⟨c, s, A, S, h, hbuild, hrun, of_decide_eq_true hquiet, hA, hplace, howner, hh,
    of_decide_eq_true htest⟩

lemma exists_leavesAndReads_lettingGo {c : Context} {S : Scope} {h : Holder}
    (hf : c.function = .lettingGo) (hsince : h.since = 6) (hstop : S.stop = 11)
    (huses : c.tree.usesOf h.binding = [12]) (hdefs : c.tree.defsOf h.binding = [3, 6, 9]) :
    ∃ seg, c.LeavesAndReads S h seg 12 ∧ seg.map Event.pos = [6, 7, 11, 12] := by
  obtain ⟨before, seg, hpath, hps, hleaves⟩ := Function.path_lettingGo
  rw [← hf] at hpath
  refine ⟨seg, ⟨?_, hstop ▸ hleaves⟩, hps⟩
  refine leadsToRead_of_positions hpath hps (by simp [hsince]) rfl (by simp [huses]) ?_
  rw [hdefs]
  decide

/-- The path that reads the text after its end avoids the definition on the other way. -/
theorem dangling_read_avoids_definition_lettingGo : ∃ c s A S h seg,
    build { types := .texts } .lettingGo {} = .ok c ∧ c.run = .ok s ∧
    (∀ x ∈ s.findings, x.violation.isDangling = false) ∧ A ∈ s.loans ∧
    c.typing.refPrefix? A.place = .ok none ∧ c.tree.owner? A.place.base = some S ∧ h ∈ A.holders ∧
    (c.tree.owner? h.binding).any S.encloses = false ∧ c.LeavesAndReads S h seg 12 ∧
    ∃ d ∈ c.tree.defsOf h.binding, h.since < d ∧ d ≤ S.stop ∧
      ∀ e ∈ seg.tail.dropLast, e.pos ≠ d := by
  obtain ⟨c, s, A, S, h, hbuild, hrun, hquiet, hA, hplace, howner, hh, hout, hsince, hstop, huses,
    hdefs⟩ := exists_loan_lettingGo
  obtain ⟨seg, hseg, -⟩ :=
    exists_leavesAndReads_lettingGo (build_fields hbuild).2.2 hsince hstop huses hdefs
  exact ⟨c, s, A, S, h, seg, hbuild, hrun, hquiet, hA, hplace, howner, hh, hout, hseg,
    dangling_read_avoids_definition hbuild hrun rfl hquiet hA hplace howner hh hout hseg⟩

/-- A dangling read is accepted if the text defines the reference again on some other way. -/
theorem dangling_read_accepted_lettingGo : ∃ c s A S h seg,
    build { types := .texts } .lettingGo {} = .ok c ∧ c.run = .ok s ∧
    (∀ x ∈ s.findings, x.violation.isDangling = false) ∧ A ∈ s.loans ∧
    c.typing.refPrefix? A.place = .ok none ∧ c.tree.owner? A.place.base = some S ∧ h ∈ A.holders ∧
    (c.tree.owner? h.binding).any S.encloses = false ∧ c.LeavesAndReads S h seg 12 ∧
    seg.map Event.pos = [6, 7, 11, 12] := by
  obtain ⟨c, s, A, S, h, hbuild, hrun, hquiet, hA, hplace, howner, hh, hout, hsince, hstop, huses,
    hdefs⟩ := exists_loan_lettingGo
  obtain ⟨seg, hseg, hps⟩ :=
    exists_leavesAndReads_lettingGo (build_fields hbuild).2.2 hsince hstop huses hdefs
  exact ⟨c, s, A, S, h, seg, hbuild, hrun, hquiet, hA, hplace, howner, hh, hout, hseg, hps⟩

end Context

end Ownership
