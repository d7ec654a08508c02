import Ownership.Proofs.Loans.Binders
import Ownership.Proofs.Loans.Dangling
import Ownership.Proofs.Moves.Destruction

/-!
# The ends of loans and of their sources

Whether a loan goes on behind the end of the scope of its source is decided in two places. Its
window goes up to the last use of a holder that no definition precedes. The check at the end of the
scope asks where the holders are declared and whether they are defined again before. In a function
without loops the two agree: a loan that passes the check has ended with the scope, and no later
statement takes it up again, since a loan is handed on only while it is active.
-/

namespace Ownership

open List

lemma Skeleton.loops_eq_nil (k : Skeleton)
    (h : ∀ pos test body loc, Event.test pos test body loc ∉ k.events) : k.loops = [] := by
  induction k with
  | done | event e => rfl
  | scope start stop node kind body ih =>
    exact ih fun pos test body loc he =>
      h pos test body loc (mem_cons_of_mem _ (mem_append_left _ he))
  | noted pos k ih => exact ih h
  | seq k l ihk ihl | fork k l ihk ihl =>
    rw [loops, ihk fun pos test body loc he => h pos test body loc (mem_append_left _ he),
      ihl fun pos test body loc he => h pos test body loc (mem_append_right _ he)]
    rfl
  | loop pos test body loc inner ih => exact absurd mem_cons_self (h pos test body loc)

namespace ScopeTree

variable {t : ScopeTree} {es : List Event} {h : Holder} {p q : Int}

/-! ### Holders without loops -/

lemma wants_iff (hloops : t.loops = []) : t.Wants h p ↔ p ≤ h.since ∨
    ∃ u ∈ t.usesOf h.binding, h.since < u ∧
      (∀ d ∈ t.defsOf h.binding, h.since < d → u ≤ d) ∧ p ≤ u := by
  have hnone : ¬∃ m, t.Carries h m ∧ p ≤ m.stop := by
    rintro ⟨m, ⟨hm, -⟩, -⟩
    rw [hloops] at hm
    cases hm
  rw [Wants, or_iff_left hnone]

lemma Wants.le_ownerStop (hnests : t.Nests es) (hloops : t.loops = [])
    (hmem : h.binding ∈ t.bindings)
    (hsince : h.since ≤ t.ownerStop h.binding) (hp : t.Wants h p) : p ≤ t.ownerStop h.binding := by
  rcases (wants_iff hloops).mp hp with hp | ⟨u, hu, -, -, hp⟩
  · exact hp.trans hsince
  · obtain ⟨X, hX, -, hlt⟩ := hnests.openAt_of_mem hmem (mem_append_left _ hu)
    have hstop : t.ownerStop h.binding = X.stop := by rw [ownerStop, owner?, hX]; rfl
    omega

lemma Wants.le_of_redefines (hloops : t.loops = []) (hp : t.Wants h p) (hr : t.Redefines h q) :
    p ≤ q := by
  obtain ⟨d, hd, hlt, hle⟩ := hr
  rcases (wants_iff hloops).mp hp with hp | ⟨u, -, -, hdefs, hp⟩
  · omega
  · have := hdefs d hd hlt
    omega

end ScopeTree

/-- Whether a loan starts before the scope of its source ends, and each holder gets it before its
own scope ends. -/
structure Loan.Timely (t : ScopeTree) (l : Loan) : Prop where
  start : l.start ≤ t.ownerStop l.place.base
  bindings : ∀ h ∈ l.holders, h.binding ∈ t.bindings
  since : ∀ h ∈ l.holders, h.since ≤ t.ownerStop h.binding

namespace Context

variable {c : Context} {S : Scope} {x e : Event} {A A' : Loan} {s s' u m : Session}
  {program : Program} {f : Function} {options : Options}

/-- A holder of a loan that does not outlive a scope is declared inside, is defined again before the
scope ends or, if the options ask for later uses, has none. -/
lemma holder_of_not_outlives (h : c.outlives S A = false) {y : Holder} (hy : y ∈ A.holders) :
    (∃ X, c.tree.owner? y.binding = some X ∧ S.encloses X = true) ∨ c.tree.Redefines y S.stop ∨
      (c.tree.holderWindow y.binding y.since).1 ≤ S.stop := by
  have hholder := any_eq_false.mp h y hy
  simp only [Bool.and_eq_true, Bool.or_eq_true, Bool.not_eq_true', not_and_or, not_or,
    Bool.not_eq_false, decide_eq_true_eq, not_lt, any_eq_true, Option.any_eq_true] at hholder
  rcases hholder with (hin | hdef) | ⟨-, hwindow⟩
  · exact .inl hin
  · exact .inr (.inl hdef)
  · exact .inr (.inr hwindow)

/-- A loan that passes the check at the end of a scope ends with it. -/
lemma stop_le_of_not_outlives (htree : ScopeTree.ofFunction c.function = .ok c.tree)
    (hnested : c.tree.Nested) (hloops : c.tree.loops = [])
    (howner : c.tree.owner? A.place.base = some S) (hexact : A.Exact c.tree)
    (htimely : A.Timely c.tree) (h : c.outlives S A = false) : A.stop ≤ S.stop := by
  have hnests := ScopeTree.nests_of_ofFunction htree
  rcases (hexact.stop A.stop).mp le_rfl with hstart | ⟨y, hy, hwants⟩
  · have hle := htimely.start
    rw [ScopeTree.ownerStop, howner, Option.map_some, Option.getD_some] at hle
    exact hstart.trans hle
  · rcases holder_of_not_outlives h hy with ⟨X, hX, hin⟩ | hdef | hwindow
    · have hle := hwants.le_ownerStop hnests hloops (htimely.bindings y hy) (htimely.since y hy)
      rw [ScopeTree.ownerStop, hX, Option.map_some, Option.getD_some] at hle
      exact hle.trans (ScopeTree.stop_le_of_encloses htree (mem_of_getElem? howner)
        (mem_of_getElem? hX) hin)
    · exact hwants.le_of_redefines hloops hdef
    · exact ((ScopeTree.le_holderWindow_iff hnested).mpr hwants).trans hwindow

/-! ### Up to the end of a scope -/

/-- What a walk keeps on which nothing is found to dangle. -/
structure Tracks (c : Context) (s : Session) : Prop where
  booked : Loan.Booked s.loans
  exact : ∀ A ∈ s.loans, A.Exact c.tree
  timely : ∀ A ∈ s.loans, A.Timely c.tree
  dangling : s.dangling = []

lemma Tracks.same {once : Prop} (h : c.Tracks s) (hsame : s.Same once s') : c.Tracks s' := by
  obtain ⟨hloans, -, hdangling, -⟩ := hsame
  exact ⟨hloans ▸ h.booked, hloans ▸ h.exact, hloans ▸ h.timely, hdangling.trans h.dangling⟩

/-- Whether a walk that comes to an event finds there what the event names still alive. -/
def Founded (c : Context) (e : Event) : Prop :=
  e.kind = .step → ∀ b, b ∈ c.tree.declaredBy e.pos ∨ c.Names e (.ofBinding b) →
    b ∈ c.tree.bindings ∧ e.pos ≤ c.tree.ownerStop b

lemma founded_of_mem (hnests : c.tree.Nests c.function.events) (he : e ∈ c.function.whole.events) :
    c.Founded e := by
  intro hk b hb
  have he' : e ∈ c.function.skeleton.events := by
    rcases mem_append.mp he with he | he
    · exact he
    · rw [mem_singleton.mp he] at hk
      cases hk
  rcases hb with hdeclared | hnames
  · obtain ⟨hmem, hat⟩ :=
      (hnests.mem_declaredBy_iff (c.function.mem_events_of_skeleton he') hk).mp hdeclared
    obtain ⟨X, -, -, -, hstop, -, hinside⟩ := hnests.exists_owner hmem
    exact ⟨hmem, by omega⟩
  · have halive : c.tree.Alive e.pos b := hnames.alive hnests he' hk
    exact ⟨halive.mem, halive.upTo⟩

section Steps

variable (hc : c.tracksLoans = true) (hnested : c.tree.Nested) {once : Prop}
  {vs : List (Event × Session)}

include hc in
/-- A holder got its loan while the loan was active. -/
lemma timely_execute (he : c.Founded e) (hb : Loan.Booked u.loans)
    (h : ∀ A ∈ u.loans, A.Timely c.tree) (hm : c.execute e u = .ok m) :
    ∀ A ∈ m.loans, A.Timely c.tree := by
  intro A hA
  by_cases hk : e.kind = .step
  · have hcomes : ∀ {y : Holder}, y.Comes c.tree (fun b => c.Names e (.ofBinding b)) e.pos →
        y.binding ∈ c.tree.bindings ∧ y.since ≤ c.tree.ownerStop y.binding := by
      rintro y ⟨hsince, hy⟩
      rw [hsince]
      exact he hk y.binding hy
    rcases (spreads_execute hc hb hm).loans A hA with ⟨A₀, hA₀, hspreads⟩ | harises
    · have htimely := h A₀ hA₀
      refine ⟨by rw [hspreads.start, hspreads.place]; exact htimely.start, fun y hy => ?_,
        fun y hy => ?_⟩
      · exact (hspreads.comes y hy).elim (htimely.bindings y) fun hy => (hcomes hy.2).1
      · exact (hspreads.comes y hy).elim (htimely.since y) fun hy => (hcomes hy.2).2
    · refine ⟨?_, fun y hy => (hcomes (harises.comes y hy)).1,
        fun y hy => (hcomes (harises.comes y hy)).2⟩
      rw [harises.start]
      exact (he hk _ (.inr harises.base)).2
  · exact h A ((idle_execute hk hm).loans ▸ hA)

include hc hnested

lemma Tracks.execute (he : c.Founded e) (h : c.Tracks u) (hm : c.execute e u = .ok m)
    (hquiet : ¬m.Dangles) : c.Tracks m := by
  have hstep : c.Trail False [(e, u)] u m := .of_execute hm
  obtain ⟨hbooked, hexact⟩ := hstep.exact hc hnested h.booked h.exact
  refine ⟨hbooked, hexact, timely_execute hc he h.booked h.timely hm, ?_⟩
  exact ((spreads_execute hc h.booked hm).dangling.resolve_right hquiet).trans h.dangling

lemma Trail.tracks (h : c.Trail once vs s s') (hvs : ∀ v ∈ vs, c.Founded v.1) (hquiet : ¬s'.Dangles)
    (hs : c.Tracks s) : c.Tracks s' := by
  induction vs generalizing s with
  | nil => exact hs.same h
  | cons v vs ih =>
    obtain ⟨e, u⟩ := v
    obtain ⟨hsame, m, hm, h⟩ := h
    have hm' : ¬m.Dangles := fun hd => hquiet (hd.of_prefix (h.findings hc))
    obtain ⟨he, hvs⟩ := forall_mem_cons.mp hvs
    exact ih h hvs ((hs.same hsame).execute hc hnested he hm hm')

/-! ### Behind the end of a scope -/

/-- Whether the loans of the bindings of a scope have ended with the scope. -/
def Expired (c : Context) (S : Scope) (s : Session) : Prop :=
  ∀ A ∈ s.loans, c.tree.owner? A.place.base = some S → c.typing.refPrefix? A.place = .ok none →
    A.stop ≤ S.stop

omit hnested in
/-- Behind its end no loan is taken up again, and none of the scope's bindings is lent. -/
lemma Expired.execute (he : c.Founded e) (hpos : S.stop < e.pos) (h : c.Tracks u)
    (hu : c.Expired S u) (hm : c.execute e u = .ok m) : c.Expired S m := by
  obtain ⟨as, hdeals, -⟩ := deals_execute hc h.booked hm
  have hkeeps : Loan.Booked m.loans ∧ ∀ A ∈ m.loans, A.start < e.pos →
      c.tree.owner? A.place.base = some S → c.typing.refPrefix? A.place = .ok none →
        A.stop ≤ S.stop := by
    refine hdeals.induct hc (P := fun ls => Loan.Booked ls ∧ ∀ A ∈ ls, A.start < e.pos →
      c.tree.owner? A.place.base = some S → c.typing.refPrefix? A.place = .ok none →
        A.stop ≤ S.stop) ?_ ⟨h.booked, fun A hA _ => hu A hA⟩
    rintro ls ls' hchange ⟨hbooked, hls⟩
    refine ⟨hbooked.change hchange, fun A hA hstart howner hplace => ?_⟩
    cases hchange with
    | grant place kind span hfree =>
      rcases mem_append.mp hA with hA | hA
      · exact hls A hA hstart howner hplace
      · rw [mem_singleton.mp hA] at hstart
        exact absurd hstart (lt_irrefl _)
    | attach held b hlive =>
      obtain ⟨A₀, hA₀, rfl⟩ := mem_map.mp hA
      by_cases hheld : A₀.id ∈ held
      · rw [if_pos hheld] at hstart howner hplace
        rw [Loan.start_attach] at hstart
        rw [Loan.place_attach] at howner hplace
        have hactive := (hbooked.proper A₀ hA₀).le_stop (hlive A₀ hA₀ hheld)
        have hended := hls A₀ hA₀ hstart howner hplace
        omega
      · rw [if_neg hheld] at hstart howner hplace ⊢
        exact hls A₀ hA₀ hstart howner hplace
  intro A hA howner
  have hstart := (timely_execute hc he h.booked h.timely hm A hA).start
  rw [ScopeTree.ownerStop, howner, Option.map_some, Option.getD_some] at hstart
  exact hkeeps.2 A hA (by omega) howner

/-- What has ended with its scope is not taken up again. -/
lemma Trail.expired (h : c.Trail once vs s s') (hvs : ∀ v ∈ vs, c.Founded v.1)
    (hlater : ∀ v ∈ vs, S.stop < v.1.pos) (hquiet : ¬s'.Dangles) (hs : c.Tracks s)
    (hexpired : c.Expired S s) : c.Expired S s' := by
  induction vs generalizing s with
  | nil =>
    intro A hA
    exact hexpired A (h.loans ▸ hA)
  | cons v vs ih =>
    obtain ⟨e, u⟩ := v
    obtain ⟨hsame, m, hm, h⟩ := h
    have hm' : ¬m.Dangles := fun hd => hquiet (hd.of_prefix (h.findings hc))
    obtain ⟨he, hvs⟩ := forall_mem_cons.mp hvs
    obtain ⟨hpos, hlater⟩ := forall_mem_cons.mp hlater
    have hu := hs.same hsame
    have hexpired' : c.Expired S u := fun A hA => hexpired A (hsame.loans ▸ hA)
    exact ih h hvs hlater (hu.execute hc hnested he hm hm') (hexpired'.execute hc he hpos hu hm)

end Steps

lemma loops_of_build (hbuild : build program f options = .ok c)
    (honce : ∀ pos test body loc, Event.test pos test body loc ∉ f.events) : c.tree.loops = [] := by
  rw [ScopeTree.loops_ofFunction (tree_of_build hbuild)]
  exact Skeleton.loops_eq_nil _ fun pos test body loc he =>
    honce pos test body loc (f.mem_events_of_skeleton he)

/-- At the end of a scope that reports nothing the loans of its bindings have ended. -/
lemma expired_of_exit (htree : ScopeTree.ofFunction c.function = .ok c.tree)
    (hnested : c.tree.Nested) (hloops : c.tree.loops = []) (hS : S ∈ c.tree.scopes)
    (hk : x.kind = .exit) (hlabel : x.label = S.start) (hm : c.execute x u = .ok m)
    (hret : u.flow.returned = false) (hquiet : ¬m.Dangles) (hu : c.Tracks u) : c.Expired S m := by
  intro A hA howner hplace
  have hnests := ScopeTree.nests_of_ofFunction htree
  rw [(idle_execute (by simp [hk]) hm).loans] at hA
  have hscope : A.place.base.scope = S.id := (hnests.known _ S howner).1.symm
  have hpass := not_outlives_of_exit hnests hS hk hlabel hm hret hquiet hu.dangling hA hscope hplace
  exact stop_le_of_not_outlives htree hnested hloops howner (hu.exact A hA) (hu.timely A hA) hpass

/-- In a function without loops in which nothing is found to dangle, the loans of the bindings of a
scope end with the scope, if the walk comes to its end. -/
lemma expired_of_reaches (hbuild : build program f options = .ok c) (hrun : c.run = .ok s)
    (honce : ∀ pos test body loc, Event.test pos test body loc ∉ f.events) (hquiet : ¬s.Dangles)
    (hS : S ∈ c.tree.scopes) (hreach : c.Reaches S) : c.Expired S s := by
  obtain ⟨hc, hr, rfl⟩ := build_fields hbuild
  have htree := tree_of_build hbuild
  have hnests := ScopeTree.nests_of_ofFunction htree
  have hnested := nested_of_build hbuild
  have hloops := loops_of_build hbuild honce
  obtain ⟨s₀, s', h₀, hwalk, -, hgrows, hloans⟩ := exists_walk_whole hc hnests hrun
  have hnone : ¬s'.Dangles := fun hd => hquiet (hd.of_prefix hgrows)
  obtain ⟨s₀', x, u, h₀', hx, hk, hpos, hret⟩ := hreach
  obtain rfl := ok_inj h₀ h₀'
  obtain ⟨S', hS', hlabel, hstop⟩ := hnests.exits x (mem_events_of_visit hc hr h₀ hwalk hx) hk
  obtain rfl := hnests.eq_of_stop hS' hS (hstop.trans hpos)
  have hfounded : ∀ v ∈ c.function.whole.visits c s₀, c.Founded v.1 := by
    intro v hv
    have hvisited : v.1 ∈ c.function.whole.visited := by
      rw [← Skeleton.map_fst_visits hc hr _ hwalk (initial_fields h₀).2.1]
      exact mem_map_of_mem hv
    exact founded_of_mem hnests (Skeleton.mem_events_of_visited _ hvisited)
  have hsorted := pairwise_visits_whole hc hr (fun pos test body loc he =>
    honce pos test body loc (Function.mem_events_of_whole he)) h₀ hwalk
  have htrail := Skeleton.walk_trail hr False _ (fun h => h.elim) hwalk
  obtain ⟨before, after, hsplit⟩ := append_of_mem hx
  rw [hsplit] at hfounded hsorted htrail
  obtain ⟨hbefore, m, hm, hafter⟩ := htrail.split
  have hm' : ¬m.Dangles := fun hd => hnone (hd.of_prefix (hafter.findings hc))
  have hu' : ¬u.Dangles := fun hd => hm' (hd.of_prefix (idle_execute (by simp [hk]) hm).findings)
  have hu : c.Tracks u := by
    have hloans₀ := (initial_fields h₀).1
    refine hbefore.tracks hc hnested (fun v hv => hfounded v (mem_append_left _ hv)) hu' ?_
    refine ⟨hloans₀ ▸ .nil, ?_, ?_, dangling_initial h₀⟩ <;> simp [hloans₀]
  have hx' : c.Founded x := hfounded (x, u) (by simp)
  have hlater : ∀ v ∈ after, S'.stop < v.1.pos := by
    intro v hv
    rw [hstop]
    exact (pairwise_cons.mp (pairwise_append.mp hsorted).2.1).1 v hv
  have hexpired : c.Expired S' s' := by
    refine hafter.expired hc hnested (fun v hv => hfounded v ?_) hlater hnone
      (hu.execute hc hnested hx' hm hm')
      (expired_of_exit htree hnested hloops hS hk hlabel.symm hm hret hm' hu)
    exact mem_append_right _ (mem_cons_of_mem _ hv)
  exact fun A hA => hexpired A (hloans ▸ hA)

/-- In a function without loops in which nothing is found to dangle, a loan of a place that is not
behind a reference ends at the latest with the scope of its source, if the walk comes to the end of
that scope. It is not active behind that end. -/
theorem loan_ends_with_source {program : Program} {f : Function} {options : Options} {c : Context}
    {s : Session} (hbuild : build program f options = .ok c) (hrun : c.run = .ok s)
    (honce : ∀ pos test body loc, Event.test pos test body loc ∉ f.events)
    (hquiet : ∀ x ∈ s.findings, x.violation.isDangling = false) {A : Loan} (hA : A ∈ s.loans)
    (hplace : c.typing.refPrefix? A.place = .ok none) {S : Scope}
    (howner : c.tree.owner? A.place.base = some S) (hreach : c.Reaches S) :
    A.stop ≤ S.stop ∧ ∀ p, S.stop < p → A.activeAt p = false := by
  have hnone : ¬s.Dangles := by
    rintro ⟨x, hx, hdangling⟩
    rw [hquiet x hx] at hdangling
    cases hdangling
  have hle : A.stop ≤ S.stop :=
    expired_of_reaches hbuild hrun honce hnone (mem_of_getElem? howner) hreach A hA
      howner hplace
  refine ⟨hle, fun p hp => ?_⟩
  rw [Bool.eq_false_iff]
  intro hactive
  have := (exact_of_run hbuild hrun A hA).1.le_stop hactive
  omega

end Context

/-- Lends a text of an inner block to a reference outside of it, which gets another loan before the
block ends and is read behind it. -/
def Function.handingBack : Function where
  name := "handingBack"
  params := [⟨"a", some ⟨1⟩, false, .unknown⟩]
  body := .mk [.declare "r" none (.borrow (.var "a" .unknown) false .unknown) true .unknown,
    .block (.mk [.declare "s" none (.literal (.text "s") .unknown) false .unknown,
      .assign (.var "r" .unknown) (.borrow (.var "s" .unknown) false .unknown) .unknown,
      .evaluate (.var "r" .unknown) .unknown,
      .assign (.var "r" .unknown) (.borrow (.var "a" .unknown) false .unknown) .unknown] .unknown),
    .evaluate (.var "r" .unknown) .unknown] .unknown

namespace Context

/-- The loan of the text ends in the block, although its holder is declared outside and is read
behind the block. -/
theorem loan_ends_with_source_handingBack : ∃ c s A S,
    build { types := .texts } .handingBack {} = .ok c ∧ c.run = .ok s ∧
    (∀ pos test body loc, Event.test pos test body loc ∉ Function.handingBack.events) ∧
    (∀ x ∈ s.findings, x.violation.isDangling = false) ∧ A ∈ s.loans ∧
    c.typing.refPrefix? A.place = .ok none ∧ c.tree.owner? A.place.base = some S ∧ c.Reaches S ∧
    (∃ h ∈ A.holders, (c.tree.owner? h.binding).any S.encloses = false ∧
      ∃ u ∈ c.tree.usesOf h.binding, S.stop < u) ∧
    A.stop ≤ S.stop ∧ ∀ p, S.stop < p → A.activeAt p = false := by
  have hok : ((build { types := .texts } .handingBack {} >>= fun c => (c, ·) <$> c.run).toOption.any
      fun r => decide (∀ x ∈ r.2.findings, x.violation.isDangling = false) && r.2.loans.any fun A =>
        (r.1.typing.refPrefix? A.place).toOption.any Option.isNone &&
        (r.1.tree.owner? A.place.base).any fun S => r.1.initial.toOption.any fun s₀ =>
          decide (∃ h ∈ A.holders, (r.1.tree.owner? h.binding).any S.encloses = false ∧
            ∃ u ∈ r.1.tree.usesOf h.binding, S.stop < u) &&
          (r.1.function.whole.visits r.1 s₀).any fun v =>
            decide (v.1.kind = .exit ∧ v.1.pos = S.stop ∧ v.2.flow.returned = false)) = true := by
    decide +kernel
  obtain ⟨c, s, hbuild, hrun, htest⟩ := exists_run_of_test hok
  obtain ⟨hquiet, htest⟩ := (Bool.and_eq_true _ _).mp htest
  obtain ⟨A, hA, htest⟩ := any_eq_true.mp htest
  obtain ⟨hplace, htest⟩ := (Bool.and_eq_true _ _).mp htest
  obtain ⟨behind, hplace, hnone⟩ := Fault.exists_ok hplace
  rw [Option.isNone_iff_eq_none.mp hnone] at hplace
  obtain ⟨S, howner, htest⟩ := (Option.any_eq_true _ _).mp htest
  obtain ⟨s₀, h₀, htest⟩ := Fault.exists_ok htest
  obtain ⟨houtside, htest⟩ := (Bool.and_eq_true _ _).mp htest
  obtain ⟨v, hv, hend⟩ := any_eq_true.mp htest
  obtain ⟨hk, hpos, hret⟩ := of_decide_eq_true hend
  have hreach : c.Reaches S := ⟨s₀, v.1, v.2, h₀, hv, hk, hpos, hret⟩
  have honce : ∀ pos test body loc, Event.test pos test body loc ∉ Function.handingBack.events := by
    have hall : ∀ e ∈ Function.handingBack.events, e.node.kindName ≠ "While" := by decide +kernel
    exact fun pos test body loc he => hall _ he rfl
  have hquiet := of_decide_eq_true hquiet
  exact ⟨c, s, A, S, hbuild, hrun, honce, hquiet, hA, hplace, howner, hreach,
    of_decide_eq_true houtside,
      loan_ends_with_source hbuild hrun honce hquiet hA hplace howner hreach⟩

end Context

end Ownership
