import Ownership.Proofs.Loans.Ending
import Ownership.Proofs.Loans.Values
import Mathlib.Order.Bounds.Basic

/-!
# Holders and last uses

In a function without loops and selections the bookkeeping of loans has a description without
windows. A statement that stores a value in a binding gives the binding the loans that come with
the sources of the value: those granted there, and those that the base of a source has got before
and has kept since. The holders of a loan are given by the least relation that is closed under such
statements, and the loan ends with the last use of a value that a holder has got.

A walk passes a loan on only while the loan is active, by the window that is known so far. This
loses nothing: a source uses its base, so the window of a loan that the base holds goes up to the
statement.
-/

namespace Ownership

open List

/-- Whether a holder is used at a position, behind where it got its value and up to the next
definition. -/
def ScopeTree.ReadsAt (t : ScopeTree) (h : Holder) (p : Int) : Prop :=
  p ∈ t.usesOf h.binding ∧ h.since < p ∧ ∀ d ∈ t.defsOf h.binding, h.since < d → p ≤ d

namespace Loan

variable {t : ScopeTree} {b : Binding} {bs : List Binding} {since : Int} {l : Loan} {h : Holder}

/-- Without loops a loan ends with the last use of a holder, if holders get it where it starts or
where another holder is used. -/
lemma Exact.isGreatest_stop (hexact : l.Exact t) (hproper : l.Proper) (hloops : t.loops = [])
    (hsince : ∀ y ∈ l.holders, y.since = l.start ∨ ∃ g ∈ l.holders, t.ReadsAt g y.since) :
    IsGreatest {p | p = l.start ∨ ∃ y ∈ l.holders, t.ReadsAt y p} l.stop := by
  have hupper : ∀ p, (p = l.start ∨ ∃ y ∈ l.holders, t.ReadsAt y p) → p ≤ l.stop := by
    rintro p (rfl | ⟨y, hy, huse, hlt, hkeeps⟩)
    · exact hproper.start_le_stop
    · exact (hexact.stop p).mpr (.inr ⟨y, hy, .inr (.inl ⟨p, huse, hlt, hkeeps, le_rfl⟩)⟩)
  have hattained : ∃ p, (p = l.start ∨ ∃ y ∈ l.holders, t.ReadsAt y p) ∧ l.stop ≤ p := by
    rcases (hexact.stop l.stop).mp le_rfl with hle | ⟨y, hy, hwants⟩
    · exact ⟨l.start, .inl rfl, hle⟩
    · rcases (ScopeTree.wants_iff hloops).mp hwants with hle | ⟨u, huse, hlt, hkeeps, hle⟩
      · exact ⟨y.since, hsince y hy, hle⟩
      · exact ⟨u, .inr ⟨y, hy, huse, hlt, hkeeps⟩, hle⟩
  obtain ⟨p, hp, hle⟩ := hattained
  obtain rfl := le_antisymm hle (hupper p hp)
  exact ⟨hp, hupper⟩

/-! ### New holders -/

lemma mem_holders_attach (hindex : ∀ y ∈ l.holders, y.binding.index = b.index → y.binding = b) :
    h ∈ (l.attach t b since).holders ↔ h ∈ l.holders ∨ h = ⟨b, since⟩ := by
  unfold attach
  split
  · rename_i hany
    obtain ⟨y, hy, hsame⟩ := any_eq_true.mp hany
    simp only [Bool.and_eq_true, decide_eq_true_eq] at hsame
    have hy' : y = ⟨b, since⟩ := by
      obtain ⟨binding, at'⟩ := y
      obtain rfl : binding = b := hindex _ hy hsame.1
      obtain rfl : at' = since := hsame.2
      rfl
    exact ⟨.inl, fun hh => hh.elim (fun hh => hh) fun hh => hh ▸ hy' ▸ hy⟩
  · simp

/-- Only the given bindings become holders. -/
lemma mem_holders_attachAll (hholders : ∀ y ∈ l.holders, y.binding ∈ t.bindings)
    (hbs : ∀ b ∈ bs, b ∈ t.bindings)
    (hindex : ∀ x ∈ t.bindings, ∀ y ∈ t.bindings, x.index = y.index → x = y) :
    h ∈ (l.attachAll t bs since).holders ↔ h ∈ l.holders ∨ h.binding ∈ bs ∧ h.since = since := by
  induction bs generalizing l with
  | nil => simp [attachAll]
  | cons b bs ih =>
    obtain ⟨hb, hbs⟩ := forall_mem_cons.mp hbs
    have hfirst : ∀ {y : Holder}, y ∈ (l.attach t b since).holders ↔
        y ∈ l.holders ∨ y = ⟨b, since⟩ :=
      mem_holders_attach fun y hy heq => hindex _ (hholders y hy) b hb heq
    have hholders' : ∀ y ∈ (l.attach t b since).holders, y.binding ∈ t.bindings := by
      intro y hy
      rcases hfirst.mp hy with hy | rfl
      · exact hholders y hy
      · exact hb
    have hrest := ih hholders' hbs
    rw [attachAll, foldl_cons]
    rw [attachAll] at hrest
    rw [hrest, hfirst, or_assoc, mem_cons, or_and_right]
    obtain ⟨x, at'⟩ := h
    rw [Holder.mk.injEq]

lemma answers_attachAll {place : Place} {kind : LoanKind} {pos : Int} :
    (l.attachAll t bs since).Answers place kind pos ↔ l.Answers place kind pos := by
  induction bs generalizing l with
  | nil => rfl
  | cons b bs ih => rw [attachAll, foldl_cons, ← attachAll, ih, answers_attach]

/-! ### Keys -/

variable {ls : List Loan}

lemma Keyed.nil : Keyed [] := fun _ hA => nomatch hA

lemma Keyed.grant (hls : Keyed ls) (hnew : ∀ A ∈ ls, ¬A.Answers l.place l.kind l.start) :
    Keyed (ls ++ [l]) := by
  intro A hA B hB hans
  rw [mem_append, mem_singleton] at hA hB
  rcases hA with hA | rfl <;> rcases hB with hB | rfl
  · exact hls A hA B hB hans
  · obtain ⟨hplace, hkind, hstart⟩ := hans
    exact absurd ⟨hplace.symm, hkind.symm, hstart.symm⟩ (hnew A hA)
  · exact absurd hans (hnew B hB)
  · rfl

lemma Keyed.map {g : Loan → Loan} (hls : Keyed ls)
    (hg : ∀ (l : Loan) place kind pos, (g l).Answers place kind pos ↔ l.Answers place kind pos) :
    Keyed (ls.map g) := by
  intro A hA B hB hans
  obtain ⟨A₀, hA₀, rfl⟩ := mem_map.mp hA
  obtain ⟨B₀, hB₀, rfl⟩ := mem_map.mp hB
  obtain ⟨hplace, hkind, hstart⟩ := (hg A₀ _ _ _).mp ⟨rfl, rfl, rfl⟩
  rw [← hplace, ← hkind, ← hstart] at hans
  rw [hls A₀ hA₀ B₀ hB₀ ((hg B₀ _ _ _).mp hans)]

end Loan

namespace Context

/-! ### Who gets a loan -/

/-- Whether an event stores the value of an expression in a binding. What is stored through a
reference stays with its pointee. -/
inductive Stores (c : Context) (e : Event) : Binding → Expr → Span → Prop
  | declare {name : String} {type : Option TypeId} {value : Expr} {mutable : Bool} {loc : Span}
      {b : Binding} (hk : e.kind = .step)
        (hn : e.node = .stmt (.declare name type value mutable loc))
      (hb : b ∈ c.tree.declaredBy e.pos) : Stores c e b value loc
  | assign {target value : Expr} {loc : Span} {p : Place} (hk : e.kind = .step)
      (hn : e.node = .stmt (.assign target value loc))
        (hp : target.place? (c.meaning e.pos) = some p)
      (hr : c.typing.refPrefix? p = .ok none) : Stores c e p.base value loc

/-- Whether a binding gets a loan at a position, by the events that have been visited: the event
there stores a value in the binding, and the loan is granted for a source of the value, or a source
passes it on from a binding that has got it before and has not been defined in between. -/
inductive Obtains (c : Context) (vs : List (Event × Session)) (A : Loan) : Binding → Int → Prop
  | granted {e : Event} {u : Session} {b : Binding} {value : Expr} {loc : Span} {x : Source}
      (hv : (e, u) ∈ vs) (hs : c.Stores e b value loc)
      (hx : c.Yields e.pos loc (u.begin loc) value x) (hA : A.GrantedFor e.pos x) :
      Obtains c vs A b e.pos
  | passedOn {e : Event} {u : Session} {b g : Binding} {value : Expr} {loc : Span} {x : Source}
      {since : Int} (hv : (e, u) ∈ vs) (hs : c.Stores e b value loc)
      (hx : c.Yields e.pos loc (u.begin loc) value x) (hg : c.PassesOn g x)
      (hheld : Obtains c vs A g since) (hlt : since < e.pos)
      (hkeeps : ∀ d ∈ c.tree.defsOf g, since < d → e.pos ≤ d) : Obtains c vs A b e.pos

variable {c : Context} {e : Event} {u m s s' : Session} {before vs : List (Event × Session)}
  {A A' : Loan} {b g : Binding} {since pos : Int} {value : Expr} {loc : Span} {x : Source}

namespace Obtains

/-- A binding gets a loan at an event that has been visited, after one at which the loan starts. -/
lemma exists_visits (h : c.Obtains vs A b since) :
    (∃ v ∈ vs, v.1.pos = since) ∧ ∃ v ∈ vs, v.1.pos = A.start := by
  induction h with
  | granted hv hs hx hA =>
    refine ⟨⟨_, hv, rfl⟩, _, hv, ?_⟩
    cases hx' : ‹Source› with
    | value p =>
      rw [hx'] at hA
      exact hA.elim
    | loan p kind =>
      rw [hx'] at hA
      exact hA.2.2.symm
  | passedOn hv hs hx hg _ hlt hkeeps ih => exact ⟨⟨_, hv, rfl⟩, ih.2⟩

lemma congr (hA : ∀ place kind pos, A.Answers place kind pos → A'.Answers place kind pos)
    (h : c.Obtains vs A b since) : c.Obtains vs A' b since := by
  induction h with
  | @granted e u b value loc x hv hs hx hgranted =>
    refine .granted hv hs hx ?_
    cases x with
    | value p => exact hgranted
    | loan p kind => exact hA p kind _ hgranted
  | passedOn hv hs hx hg _ hlt hkeeps ih => exact .passedOn hv hs hx hg ih hlt hkeeps

end Obtains

/-- Whether the visit of an event gives a loan to a binding, by what the earlier visits have
done. -/
def Gives (c : Context) (before : List (Event × Session)) (e : Event) (u : Session) (A : Loan)
    (b : Binding) : Prop :=
  ∃ value loc x, c.Stores e b value loc ∧ c.Yields e.pos loc (u.begin loc) value x ∧
    (A.GrantedFor e.pos x ∨ ∃ g since, c.PassesOn g x ∧ c.Obtains before A g since ∧ since < e.pos ∧
      ∀ d ∈ c.tree.defsOf g, since < d → e.pos ≤ d)

/-- What comes with one more visit, if visits are in the order of the text. -/
lemma obtains_append_iff (hbefore : ∀ v ∈ before, v.1.pos < e.pos) :
    c.Obtains (before ++ [(e, u)]) A b since ↔
      c.Obtains before A b since ∨ since = e.pos ∧ c.Gives before e u A b := by
  constructor
  · intro h
    induction h with
    | granted hv hs hx hA =>
      rcases mem_append.mp hv with hv | hv
      · exact .inl (.granted hv hs hx hA)
      · obtain ⟨rfl, rfl⟩ := Prod.mk.inj (mem_singleton.mp hv)
        exact .inr ⟨rfl, _, _, _, hs, hx, .inl hA⟩
    | passedOn hv hs hx hg _ hlt hkeeps ih =>
      rcases mem_append.mp hv with hv | hv
      · rcases ih with hheld | ⟨rfl, -⟩
        · exact .inl (.passedOn hv hs hx hg hheld hlt hkeeps)
        · exact absurd (hbefore _ hv) (not_lt_of_gt hlt)
      · obtain ⟨rfl, rfl⟩ := Prod.mk.inj (mem_singleton.mp hv)
        rcases ih with hheld | ⟨rfl, -⟩
        · exact .inr ⟨rfl, _, _, _, hs, hx, .inr ⟨_, _, hg, hheld, hlt, hkeeps⟩⟩
        · exact absurd hlt (lt_irrefl _)
  · have hmono :
        ∀ {b since}, c.Obtains before A b since → c.Obtains (before ++ [(e, u)]) A b since := by
      intro b since h
      induction h with
      | granted hv hs hx hA => exact .granted (mem_append_left _ hv) hs hx hA
      | passedOn hv hs hx hg _ hlt hkeeps ih =>
        exact .passedOn (mem_append_left _ hv) hs hx hg ih hlt hkeeps
    have hlast : (e, u) ∈ before ++ [(e, u)] := by simp
    rintro (h | ⟨rfl, value, loc, x, hs, hx, hA | ⟨g, since, hg, hheld, hlt, hkeeps⟩⟩)
    · exact hmono h
    · exact .granted hlast hs hx hA
    · exact .passedOn hlast hs hx hg (hmono hheld) hlt hkeeps

lemma keyed_access (hc : c.tracksLoans = true) {a : Access} {span : Span} {k : List Nat × Session}
    (h : c.access pos span s a = .ok k) (hs : Loan.Keyed s.loans) : Loan.Keyed k.2.loans := by
  rcases access_cases hc h with hidle | ⟨p, kind, -, hnew, -, hk⟩
  · rwa [hidle.loans]
  · rw [hk]
    refine hs.grant fun A hA hans => ?_
    have := find?_eq_none.mp hnew A hA
    simp [hans.1, hans.2.1, hans.2.2] at this

lemma Deals.keyed (hc : c.tracksLoans = true) {as : List (Access × Session)}
    (h : c.Deals pos as s s') (hs : Loan.Keyed s.loans) : Loan.Keyed s'.loans := by
  induction h with
  | idle h => rwa [h.loans]
  | attach held b h =>
    refine hs.map fun l place kind pos => ?_
    split
    · exact Loan.answers_attach
    · rfl
  | access h => exact keyed_access hc h hs
  | append _ _ ih ih' => exact ih' (ih hs)

/-! ### What a statement does -/

lemma Stores.founded (h : c.Stores e b value loc) :
    b ∈ c.tree.declaredBy e.pos ∨ c.Names e (.ofBinding b) := by
  cases h with
  | declare hk hn hb => exact .inl hb
  | @assign target value loc p hk hn hp hr =>
    obtain ⟨name, hname, hbase⟩ := Expr.exists_name_of_place? hp
    refine .inr (.inl ⟨name, mem_flatMap.mpr ⟨target, ?_, hname⟩, hbase⟩)
    rw [hn]
    simp [Node.expressions, Stmt.expressions]

/-- A stored value uses the bases of its sources. -/
lemma Stores.mem_usesOf (hnests : c.tree.Nests c.function.events) (he : e ∈ c.function.events)
    (hs : c.Stores e b value loc) (hx : c.Yields e.pos loc u value x) (hg : c.PassesOn g x) :
    g ∈ c.tree.bindings ∧ e.pos ∈ c.tree.usesOf g := by
  obtain ⟨name, hname, hmeans⟩ := hx.exists_name hg
  have hused : e.kind = .step ∧ name ∈ e.node.usedNames := by
    cases hs with
    | declare hk hn hb =>
      rw [hn]
      exact ⟨hk, mem_flatMap.mpr ⟨_, by simp [Node.expressions, Stmt.expressions], hname⟩⟩
    | @assign target value loc p hk hn hp hr =>
      rw [hn]
      refine ⟨hk, ?_⟩
      cases target <;> simp [Node.usedNames, hname]
  obtain ⟨hk, hused⟩ := hused
  rw [meaning, ← hnests.numbered.labelled e he (by simp [hk])] at hmeans
  have hvisible := hnests.visible_of_resolve he hk (mem_append_left _ hused) hmeans
  refine ⟨hvisible.mem, ?_⟩
  rw [hnests.usesOf_eq hvisible.mem, mem_flatMap]
  refine ⟨e, he, ?_⟩
  rw [ScopeTree.usedAt, if_pos hk]
  exact mem_map.mpr ⟨name, mem_filter.mpr ⟨hused, decide_eq_true hmeans⟩, rfl⟩

/-- What an event does to the loans: some are granted, and then some are given to bindings. -/
structure Deposits (c : Context) (e : Event) (u m v : Session) (held : List Nat)
    (bs : List Binding) :
    Prop where
  adds : u.Adds e.pos v
  loans : m.loans = v.loans.map fun l => if l.id ∈ held then l.attachAll c.tree bs e.pos else l
  founded : ∀ b ∈ bs, e.kind = .step ∧ (b ∈ c.tree.declaredBy e.pos ∨ c.Names e (.ofBinding b))
  held_iff : ∀ A ∈ v.loans, ∀ b, A.id ∈ held ∧ b ∈ bs ↔
    ∃ value loc x, c.Stores e b value loc ∧ c.Yields e.pos loc (u.begin loc) value x ∧
      c.Brings e.pos A x

lemma Deposits.of_adds (h : u.Adds e.pos m) (hnone : ∀ b value loc, ¬c.Stores e b value loc) :
    c.Deposits e u m m [] [] where
  adds := h
  loans := by simp
  founded b hb := nomatch hb
  held_iff A _ b := by simp [hnone]

lemma loans_introduce (state : PlaceState) (held : List Nat) (s : Session) :
    (c.introduce pos state held s).loans = s.loans.map fun l =>
      if l.id ∈ held then l.attachAll c.tree (c.tree.declaredBy pos) pos else l :=
  Session.loans_attachAll (fun _ _ => rfl) _ s

section Stores

variable (hc : c.tracksLoans = true) (hk : e.kind = .step) (hu : u.replay = 0)
  (hb : Loan.Booked u.loans) (hkeyed : Loan.Keyed u.loans)

include hc hk hu hb hkeyed

omit hk hu in
lemma booked_keyed_evaluate {k : List Nat × Session}
    (h : c.evaluate e.pos loc value (u.begin loc) = .ok k) :
    Loan.Booked k.2.loans ∧ Loan.Keyed k.2.loans := by
  obtain ⟨as, held, hcourse, -⟩ := course_performAll (fun _ _ _ _ => trivial)
    (Expr.based_requests true value) h []
  obtain ⟨hdeals, -⟩ := hcourse.deals hc hb fun _ _ hid => nomatch hid
  exact ⟨hdeals.booked hc hb, hdeals.keyed hc hkeyed⟩

lemma exists_deposits_declare {name : String} {type : Option TypeId} {mutable : Bool}
    (hn : e.node = .stmt (.declare name type value mutable loc))
    (hm : c.declare e.pos value loc (u.begin loc) = .ok m) :
    ∃ v held bs, c.Deposits e u m v held bs := by
  obtain ⟨k, hk', h⟩ := bind_eq_ok.mp hm
  cases h
  refine ⟨k.2, k.1, c.tree.declaredBy e.pos, (adds_performAll hc hk').begin, loans_introduce ..,
    fun b hb => ⟨hk, .inl hb⟩, fun A hA b => ?_⟩
  obtain ⟨hb', hkeyed'⟩ := booked_keyed_evaluate hc hb hkeyed hk'
  rw [mem_evaluate_iff (u := u.begin loc) hc hb' hkeyed' hA value hu hk'
    (Session.Idle.refl k.2).adds]
  constructor
  · rintro ⟨⟨x, hx, hbrings⟩, hb⟩
    exact ⟨value, loc, x, .declare hk hn hb, hx, hbrings⟩
  · rintro ⟨value', loc', x, hs, hx, hbrings⟩
    cases hs with
    | declare _ hn' hb =>
      obtain ⟨-, -, rfl, -, rfl⟩ := Stmt.declare.inj (Node.stmt.inj (hn.symm.trans hn'))
      exact ⟨⟨x, hx, hbrings⟩, hb⟩
    | assign _ hn' => cases hn.symm.trans hn'

/-- An assignment gives the loans of its value to its target. -/
lemma exists_deposits_assign {target : Expr} (hn : e.node = .stmt (.assign target value loc))
    (hm : c.assign e.pos target value loc (u.begin loc) = .ok m) :
    ∃ v held bs, c.Deposits e u m v held bs := by
  obtain ⟨k, hk', h⟩ := bind_eq_ok.mp hm
  cases hp : target.place? (c.meaning e.pos) with
  | none =>
    rw [hp] at h
    cases h
  | some p =>
    rw [hp] at h
    obtain ⟨a, ha, h⟩ := bind_eq_ok.mp h
    obtain ⟨k', hk'', h⟩ := bind_eq_ok.mp h
    cases h
    obtain ⟨behind, hbehind, ha⟩ := bind_eq_ok.mp ha
    have hadds : u.Adds e.pos k'.2 := ((adds_performAll hc hk').trans (adds_access hc hk'')).begin
    have hstores : ∀ b value' loc', c.Stores e b value' loc' ↔
        behind = none ∧ b = p.base ∧ value' = value ∧ loc' = loc := by
      intro b value' loc'
      constructor
      · intro hs
        cases hs with
        | declare _ hn' => cases hn.symm.trans hn'
        | assign _ hn' hp' hr =>
          obtain ⟨rfl, rfl, rfl⟩ := Stmt.assign.inj (Node.stmt.inj (hn.symm.trans hn'))
          obtain rfl := Option.mem_unique hp hp'
          exact ⟨ok_inj hbehind hr, rfl, rfl, rfl⟩
      · rintro ⟨rfl, rfl, rfl, rfl⟩
        exact .assign hk hn hp hbehind
    cases behind with
    | some r =>
      cases ha
      exact ⟨_, _, _, .of_adds hadds fun b value' loc' hs => by simpa using (hstores ..).mp hs⟩
    | none =>
      cases ha
      rw [if_pos rfl]
      refine ⟨k'.2, k.1, [p.base], hadds, rfl, fun b hb => ?_, fun A hA b => ?_⟩
      · rw [mem_singleton.mp hb]
        exact ⟨hk, ((hstores p.base value loc).mpr ⟨rfl, rfl, rfl, rfl⟩).founded⟩
      · obtain ⟨hb', hkeyed'⟩ := booked_keyed_evaluate hc hb hkeyed hk'
        rw [mem_evaluate_iff (u := u.begin loc) hc (booked_access hc hk'' hb')
          (keyed_access hc hk'' hkeyed') hA value hu hk' (adds_access hc hk''), mem_singleton]
        constructor
        · rintro ⟨⟨x, hx, hbrings⟩, rfl⟩
          exact ⟨value, loc, x, (hstores ..).mpr ⟨rfl, rfl, rfl, rfl⟩, hx, hbrings⟩
        · rintro ⟨value', loc', x, hs, hx, hbrings⟩
          obtain ⟨-, rfl, rfl, rfl⟩ := (hstores ..).mp hs
          exact ⟨⟨x, hx, hbrings⟩, rfl⟩

/-- Every statement stores the loans of its value, if it stores one. -/
lemma exists_deposits_stmt {stmt : Stmt} (hn : e.node = .stmt stmt)
    (hm : c.executeNode e.pos u (.stmt stmt) = .ok m) :
    ∃ v held bs, c.Deposits e u m v held bs := by
  have hgrants : u.Adds e.pos m →
      (∀ name type value mutable loc, stmt ≠ .declare name type value mutable loc) →
      (∀ target value loc, stmt ≠ .assign target value loc) →
      ∃ v held bs, c.Deposits e u m v held bs := by
    intro hadds hdeclare hassign
    refine ⟨m, [], [], .of_adds hadds fun b value loc hs => ?_⟩
    cases hs with
    | declare _ hn' _ => exact hdeclare _ _ _ _ _ (Node.stmt.inj (hn.symm.trans hn'))
    | assign _ hn' _ _ => exact hassign _ _ _ (Node.stmt.inj (hn.symm.trans hn'))
  cases stmt with
  | declare name type value mutable loc => exact exists_deposits_declare hc hk hu hb hkeyed hn hm
  | assign target value loc => exact exists_deposits_assign hc hk hu hb hkeyed hn hm
  | evaluate value loc =>
    obtain ⟨k, hk, rfl⟩ := map_eq_ok.mp hm
    exact hgrants (adds_performAll hc hk).begin (by simp) (by simp)
  | ret value loc =>
    have hgive : c.giveBack e.pos value loc (u.begin loc) = .ok m := hm
    rw [giveBack_eq] at hgive
    obtain ⟨m', hm', rfl⟩ := map_eq_ok.mp hgive
    obtain ⟨k, hk, hescape⟩ := bind_eq_ok.mp hm'
    have hadds := (adds_performAll hc hk).trans (dangled_escape hescape).still.idle.adds
    exact hgrants (hadds.trans (idle_leaveFunction e.pos m').adds).begin (by simp) (by simp)
  | branch test t e' loc | loop test body loc =>
    obtain ⟨k, hk, h⟩ := bind_eq_ok.mp hm
    cases h
    exact hgrants (adds_performAll hc hk).begin (by simp) (by simp)
  | select scrutinee arms type loc =>
    have hscrut : Prod.snd <$> c.scrutinize e.pos loc scrutinee (u.begin loc) = .ok m := hm
    have hadds : (u.begin loc).Adds e.pos m := by
      cases hp : scrutinee.place? (c.meaning e.pos) with
      | some p =>
        rw [scrutinize_place hp] at hscrut
        obtain ⟨k, hk, rfl⟩ := map_eq_ok.mp hscrut
        exact adds_access hc hk
      | none =>
        rw [scrutinize_value hp] at hscrut
        obtain ⟨k, hk, rfl⟩ := map_eq_ok.mp hscrut
        exact adds_performAll hc hk
    exact hgrants hadds.begin (by simp) (by simp)
  | block b =>
    cases hm
    exact hgrants (Session.Idle.refl u).adds (by simp) (by simp)
  | foreign kind => cases hm

/-- Whatever is not the header of an arm of a selection grants loans and gives them to bindings. -/
lemma exists_deposits (harm : ∀ a sel, e.node ≠ .arm a (some sel)) (hm : c.execute e u = .ok m) :
    ∃ v held bs, c.Deposits e u m v held bs := by
  have hnothing :
      u = m → (∀ stmt, e.node ≠ .stmt stmt) → ∃ v held bs, c.Deposits e u m v held bs := by
    rintro rfl hstmt
    refine ⟨u, [], [], .of_adds (Session.Idle.refl u).adds fun b value loc hs => ?_⟩
    cases hs with
    | declare _ hn' _ => exact hstmt _ hn'
    | assign _ hn' _ _ => exact hstmt _ hn'
  rw [execute, hk] at hm
  cases hn : e.node with
  | stmt stmt =>
    rw [hn] at hm
    exact exists_deposits_stmt hc hk hu hb hkeyed hn hm
  | arm a sel =>
    rw [hn] at hm
    cases sel with
    | some sel => exact absurd hn (harm a sel)
    | none => exact hnothing (Except.ok.inj hm) (by simp [hn])
  | function | param p =>
    rw [hn] at hm
    exact hnothing (Except.ok.inj hm) (by simp [hn])

end Stores

/-! ### Along the walk -/

/-- Whether the loans of a session are those that some visits account for. -/
structure Accounts (c : Context) (before : List (Event × Session)) (s : Session) : Prop where
  booked : Loan.Booked s.loans
  keyed : Loan.Keyed s.loans
  exact : ∀ A ∈ s.loans, A.Exact c.tree
  timely : ∀ A ∈ s.loans, A.Timely c.tree
  replay : s.replay = 0
  start : ∀ A ∈ s.loans, ∃ v ∈ before, v.1.pos = A.start
  holders : ∀ A ∈ s.loans, ∀ b since, ⟨b, since⟩ ∈ A.holders ↔ c.Obtains before A b since

lemma Accounts.same (h : c.Accounts before s) (hsame : s.Same True s') : c.Accounts before s' := by
  obtain ⟨hloans, -, -, hreplay⟩ := hsame
  exact ⟨hloans ▸ h.booked, hloans ▸ h.keyed, hloans ▸ h.exact, hloans ▸ h.timely,
    (hreplay trivial).trans h.replay, hloans ▸ h.start, hloans ▸ h.holders⟩

section Steps

variable (hnests : c.tree.Nests c.function.events) (he : e ∈ c.function.events)
  (hbefore : ∀ v ∈ before, v.1.pos < e.pos) (h : c.Accounts before u)

include hnests he hbefore h

/-- A source brings a loan that is granted for it or that its base has got and kept: the use of the
base keeps the loan active. -/
lemma Accounts.brings_iff {v : Session} (hadds : u.Adds e.pos v) (hA : A ∈ v.loans)
    (hs : c.Stores e b value loc) (hx : c.Yields e.pos loc (u.begin loc) value x) :
    c.Brings e.pos A x ↔ A.GrantedFor e.pos x ∨ ∃ g since, c.PassesOn g x ∧
      c.Obtains before A g since ∧ since < e.pos ∧ ∀ d ∈ c.tree.defsOf g, since < d →
        e.pos ≤ d := by
  refine or_congr_right ?_
  constructor
  · rintro ⟨g, hg, hactive, hheld⟩
    obtain ⟨since, ⟨y, hy, hindex, rfl⟩, hkeeps⟩ := Loan.heldBy_iff.mp hheld
    rcases hadds.mem_or hA with hA | ⟨-, hnone⟩
    · obtain ⟨binding, since⟩ := y
      obtain rfl : binding = g := hnests.eq_of_index ((h.timely A hA).bindings _ hy)
        (hs.mem_usesOf hnests he hx hg).1 hindex
      have hobtains := (h.holders A hA _ _).mp hy
      obtain ⟨w, hw, hpos⟩ := hobtains.exists_visits.1
      exact ⟨_, since, hg, hobtains, hpos ▸ hbefore w hw, hkeeps⟩
    · rw [hnone] at hy
      cases hy
  · rintro ⟨g, since, hg, hobtains, hlt, hkeeps⟩
    have huse := (hs.mem_usesOf hnests he hx hg).2
    obtain ⟨w, hw, hstart⟩ := hobtains.exists_visits.2
    rcases hadds.mem_or hA with hA | ⟨hnew, -⟩
    · have hholds : A.Holds g since := ⟨_, (h.holders A hA g since).mpr hobtains, rfl, rfl⟩
      have hle : A.start ≤ e.pos := hstart ▸ (hbefore w hw).le
      exact ⟨g, hg, (h.exact A hA).activeAt_of_holds hholds huse hlt hkeeps hle le_rfl,
        Loan.heldBy_iff.mpr ⟨since, hholds, hkeeps⟩⟩
    · have := hbefore w hw
      omega

/-- The new holders are those that the statement stores a value in. -/
lemma Accounts.holders_of_deposits {v : Session} {held : List Nat} {bs : List Binding}
    (hdep : c.Deposits e u m v held bs) (hfounded : ∀ b ∈ bs, b ∈ c.tree.bindings)
    (hA : A ∈ m.loans) (b : Binding) (since : Int) :
    ⟨b, since⟩ ∈ A.holders ↔ c.Obtains (before ++ [(e, u)]) A b since := by
  rw [hdep.loans] at hA
  obtain ⟨B, hB, rfl⟩ := mem_map.mp hA
  have hkey :
      ∀ place kind pos, Loan.Answers (if B.id ∈ held then B.attachAll c.tree bs e.pos else B)
      place kind pos ↔ B.Answers place kind pos := by
    intro place kind pos
    split
    · exact Loan.answers_attachAll
    · rfl
  have hbefore' : ∀ {b since}, ⟨b, since⟩ ∈ B.holders ↔ c.Obtains before B b since := by
    intro b since
    rcases hdep.adds.mem_or hB with hB | ⟨hstart, hnone⟩
    · exact h.holders B hB b since
    · rw [hnone]
      refine ⟨fun hmem => (not_mem_nil hmem).elim, fun hobtains => ?_⟩
      obtain ⟨w, hw, hpos⟩ := hobtains.exists_visits.2
      have := hbefore w hw
      omega
  have hnow : ⟨b, since⟩ ∈ (if B.id ∈ held then B.attachAll c.tree bs e.pos else B).holders ↔
      ⟨b, since⟩ ∈ B.holders ∨ since = e.pos ∧ B.id ∈ held ∧ b ∈ bs := by
    split
    · rename_i hheld
      rw [Loan.mem_holders_attachAll ?_ hfounded fun x hx y hy => hnests.eq_of_index hx hy]
      · simp [hheld, and_comm]
      · rcases hdep.adds.mem_or hB with hB | ⟨-, hnone⟩
        · exact (h.timely B hB).bindings
        · simp [hnone]
    · rename_i hheld
      simp [hheld]
  have hgives : B.id ∈ held ∧ b ∈ bs ↔ c.Gives before e u B b := by
    rw [hdep.held_iff B hB b]
    refine exists_congr fun value => exists_congr fun loc => exists_congr fun x => ?_
    refine and_congr_right fun hs => and_congr_right fun hx => ?_
    exact h.brings_iff hnests he hbefore hdep.adds hB hs hx
  rw [hnow, hbefore', hgives, ← obtains_append_iff hbefore]
  exact ⟨.congr fun place kind pos => (hkey place kind pos).mpr,
    .congr fun place kind pos => (hkey place kind pos).mp⟩

/-- A visit that is not of the header of an arm keeps the loans accounted for. -/
lemma Accounts.execute (hc : c.tracksLoans = true) (hnested : c.tree.Nested)
    (hfounded : c.Founded e) (harm : e.kind = .step → ∀ a sel, e.node ≠ .arm a (some sel))
    (hm : c.execute e u = .ok m) : c.Accounts (before ++ [(e, u)]) m := by
  obtain ⟨as, hdeals, -⟩ := deals_execute hc h.booked hm
  obtain ⟨hbooked, hexact⟩ :=
    (Trail.of_execute hm : c.Trail False [(e, u)] u m).exact hc hnested h.booked h.exact
  have hdeposits : ∃ v held bs, c.Deposits e u m v held bs := by
    by_cases hk : e.kind = .step
    · exact exists_deposits hc hk h.replay h.booked h.keyed (harm hk) hm
    · refine ⟨m, [], [], .of_adds (idle_execute hk hm).adds fun b value loc hs => ?_⟩
      cases hs with
      | declare hk' => exact hk hk'
      | assign hk' => exact hk hk'
  obtain ⟨v, held, bs, hdep⟩ := hdeposits
  refine ⟨hbooked, hdeals.keyed hc h.keyed, hexact, timely_execute hc hfounded h.booked h.timely hm,
    (hdeals.replay hc).trans h.replay, fun A hA => ?_, fun A hA b since => ?_⟩
  · rw [hdep.loans] at hA
    obtain ⟨B, hB, rfl⟩ := mem_map.mp hA
    have hstart : (if B.id ∈ held then B.attachAll c.tree bs e.pos else B).start = B.start := by
      split
      · exact (Loan.Becomes.attachAll B c.tree bs e.pos).start
      · rfl
    rw [hstart]
    rcases hdep.adds.mem_or hB with hB | ⟨hnew, -⟩
    · obtain ⟨w, hw, hpos⟩ := h.start B hB
      exact ⟨w, mem_append_left _ hw, hpos⟩
    · exact ⟨(e, u), by simp, hnew.symm⟩
  · refine h.holders_of_deposits hnests he hbefore hdep (fun b hb => ?_) hA b since
    obtain ⟨hk, hb⟩ := hdep.founded b hb
    exact (hfounded hk b hb).1

end Steps

/-- Whether an event that a walk in the order of the text visits is one whose deposits are
described: it belongs to the function, what it names is alive, and it is not the header of an
arm. -/
structure Described (c : Context) (e : Event) : Prop where
  mem : e ∈ c.function.events
  founded : c.Founded e
  arm : e.kind = .step → ∀ a sel, e.node ≠ .arm a (some sel)

lemma Trail.accounts (hc : c.tracksLoans = true) (hnests : c.tree.Nests c.function.events)
    (hnested : c.tree.Nested) (h : c.Trail True vs s s') (hvs : ∀ v ∈ vs, c.Described v.1)
    (hsorted : (before ++ vs).Pairwise fun v w => v.1.pos < w.1.pos) (hs : c.Accounts before s) :
    c.Accounts (before ++ vs) s' := by
  induction vs generalizing before s with
  | nil =>
    rw [append_nil]
    exact hs.same h
  | cons v vs ih =>
    obtain ⟨e, u⟩ := v
    obtain ⟨hsame, m, hm, h⟩ := h
    obtain ⟨he, hvs⟩ := forall_mem_cons.mp hvs
    have hbefore : ∀ w ∈ before, w.1.pos < e.pos := fun w hw =>
      (pairwise_append.mp hsorted).2.2 w hw (e, u) mem_cons_self
    have hstep := (hs.same hsame).execute hnests he.mem hbefore hc hnested he.founded he.arm hm
    rw [append_cons] at hsorted ⊢
    exact ih h hvs hsorted hstep

section Functions

variable {program : Program} {f : Function} {options : Options} {s₀ : Session}

variable (hbuild : build program f options = .ok c)

include hbuild

lemma described_of_mem
    (hflat : ∀ e ∈ f.events, ∀ scrutinee arms type loc,
      e.node ≠ .stmt (.select scrutinee arms type loc))
    (he : e ∈ f.skeleton.events) : c.Described e := by
  obtain ⟨-, -, rfl⟩ := build_fields hbuild
  have hnests := nests_of_build hbuild
  refine ⟨c.function.mem_events_of_skeleton he, founded_of_mem hnests (mem_append_left _ he),
    fun hk a sel hn => ?_⟩
  obtain ⟨hi, hspans⟩ := c.function.spans_skeleton
  obtain ⟨d, hd, -, hsel, -⟩ :=
    (Stmt.framed_skeletonAll none c.function.bodyStart c.function.body.stmts).exists_selection
      hnests
      hspans (fun e he => c.function.mem_events_of_skeleton he) (fun s hs => nomatch hs) he hk hn
  obtain ⟨-, arms, loc, hdn⟩ := Event.selection?_eq_some hsel
  exact hflat d hd _ _ _ _ hdn

/-- In a function without loops and selections the visits account for the loans. -/
lemma accounts_of_run (hrun : c.run = .ok s)
    (honce : ∀ pos test body loc, Event.test pos test body loc ∉ f.events)
    (hflat : ∀ e ∈ f.events, ∀ scrutinee arms type loc,
      e.node ≠ .stmt (.select scrutinee arms type loc)) (h₀ : c.initial = .ok s₀) :
    ∃ s₁, s₁.loans = s.loans ∧ c.Accounts (f.skeleton.visits c s₀) s₁ := by
  obtain ⟨hc, hr, hf⟩ := build_fields hbuild
  have hnests := nests_of_build hbuild
  obtain ⟨s₀', s₁, h₀', h₁, hexit⟩ := run_cases hrun
  obtain rfl := ok_inj h₀ h₀'
  obtain ⟨hloans₀, hret₀, -⟩ := initial_fields h₀
  rw [hf] at h₁
  have honce' : ∀ pos test body loc, Event.test pos test body loc ∉ f.skeleton.events :=
    fun pos test body loc he => honce pos test body loc (f.mem_events_of_skeleton he)
  have hmap := Skeleton.map_fst_visits hc hr _ h₁ hret₀
  have hsorted : (f.skeleton.visits c s₀).Pairwise fun v w => v.1.pos < w.1.pos := by
    obtain ⟨hi, hspans⟩ := f.spans_skeleton
    have hall := hspans.pairwise_events.sublist (Skeleton.visited_sublist_events _ honce')
    rwa [← hmap, pairwise_map] at hall
  have hvs : ∀ v ∈ f.skeleton.visits c s₀, c.Described v.1 := by
    intro v hv
    have hvisited : v.1 ∈ f.skeleton.visited := hmap ▸ mem_map_of_mem hv
    exact described_of_mem hbuild hflat (Skeleton.mem_events_of_visited _ hvisited)
  have hinitial : c.Accounts [] s₀ := by
    refine ⟨hloans₀ ▸ .nil, hloans₀ ▸ .nil, ?_, ?_, replay_initial h₀, ?_, ?_⟩ <;> simp [hloans₀]
  have htrail := Skeleton.walk_trail hr True _ (fun _ => honce') h₁
  refine ⟨s₁, ?_, htrail.accounts hc hnests (nested_of_build hbuild) hvs hsorted hinitial⟩
  exact (idle_execute (e := .exit 0 c.function.stop .function) EventKind.noConfusion
    hexit).loans.symm

lemma Obtains.since_cases (hvs : ∀ v ∈ vs, v.1 ∈ f.events) (h : c.Obtains vs A b since) :
    since = A.start ∨ ∃ g since', c.Obtains vs A g since' ∧ c.tree.ReadsAt ⟨g, since'⟩ since := by
  obtain ⟨-, -, rfl⟩ := build_fields hbuild
  cases h with
  | @granted e u b value loc x hv hs hx hA =>
    cases x with
    | value p => exact hA.elim
    | loan p kind => exact .inl hA.2.2.symm
  | passedOn hv hs hx hg hheld hlt hkeeps =>
    exact .inr ⟨_, _, hheld, (hs.mem_usesOf (nests_of_build hbuild) (hvs _ hv) hx hg).2,
      hlt, hkeeps⟩

end Functions

/-- In a function without loops and selections the holders of a loan are exactly those of the least
relation that is closed under stores, the loan is carried around no loop, and it ends at the last
position among its start and the uses of what its holders got, each up to the next definition. -/
theorem last_use_windows_exact {program : Program} {f : Function} {options : Options} {c : Context}
    {s : Session} (hbuild : build program f options = .ok c) (hrun : c.run = .ok s)
    (honce : ∀ pos test body loc, Event.test pos test body loc ∉ f.events)
    (hflat : ∀ e ∈ f.events, ∀ scrutinee arms type loc,
      e.node ≠ .stmt (.select scrutinee arms type loc)) :
    ∃ s₀, c.initial = .ok s₀ ∧ ∀ A ∈ s.loans,
      (∀ b since, ⟨b, since⟩ ∈ A.holders ↔ c.Obtains (f.skeleton.visits c s₀) A b since) ∧
      A.loop = none ∧
      IsGreatest {p | p = A.start ∨ ∃ b since, c.Obtains (f.skeleton.visits c s₀) A b since ∧
        c.tree.ReadsAt ⟨b, since⟩ p} A.stop := by
  obtain ⟨s₀, s₁, h₀, h₁, -⟩ := run_cases hrun
  obtain ⟨hc, hr, hf⟩ := build_fields hbuild
  obtain ⟨s', hloans, haccounts⟩ := accounts_of_run hbuild hrun honce hflat h₀
  have hvs : ∀ v ∈ f.skeleton.visits c s₀, v.1 ∈ f.events := by
    intro v hv
    rw [hf] at h₁
    have hvisited : v.1 ∈ f.skeleton.visited :=
      Skeleton.map_fst_visits hc hr _ h₁ (initial_fields h₀).2.1 ▸ mem_map_of_mem hv
    exact f.mem_events_of_skeleton (Skeleton.mem_events_of_visited _ hvisited)
  have hloops := loops_of_build hbuild honce
  refine ⟨s₀, h₀, fun A hA => ?_⟩
  rw [← hloans] at hA
  have hholders := haccounts.holders A hA
  refine ⟨hholders, ?_, ?_⟩
  · rw [Option.eq_none_iff_forall_not_mem]
    intro m hm
    have hmem := (haccounts.exact A hA).mem m hm
    rw [hloops] at hmem
    cases hmem
  · simp only [← hholders]
    have hset :
        {p | p = A.start ∨ ∃ b since, ⟨b, since⟩ ∈ A.holders ∧ c.tree.ReadsAt ⟨b, since⟩ p} =
        {p | p = A.start ∨ ∃ y ∈ A.holders, c.tree.ReadsAt y p} := by
      ext p
      exact or_congr_right ⟨fun ⟨b, since, hy⟩ => ⟨⟨b, since⟩, hy⟩,
        fun ⟨⟨b, since⟩, hy⟩ => ⟨b, since, hy⟩⟩
    rw [hset]
    refine (haccounts.exact A hA).isGreatest_stop (haccounts.booked.proper A hA) hloops
      fun y hy => ?_
    obtain ⟨b, since⟩ := y
    rcases ((hholders b since).mp hy).since_cases hbuild hvs with hstart | ⟨g, since', hg, hreads⟩
    · exact .inl hstart
    · exact .inr ⟨⟨g, since'⟩, (hholders g since').mpr hg, hreads⟩

end Context

/-- Puts a reference and a borrow into a pair, stores a borrow of what the reference refers to in
the pair, and uses the pair. -/
def Function.bundling : Function where
  name := "bundling"
  params := [⟨"x", some ⟨1⟩, false, .unknown⟩, ⟨"y", some ⟨1⟩, false, .unknown⟩]
  body := .mk [
    .declare "r" none (.borrow (.var "x" .unknown) false .unknown) false .unknown,
    .declare "p" none (.construct "Pair" none
      [.var "r" .unknown, .borrow (.var "y" .unknown) false .unknown] .unknown) true .unknown,
    .assign (.field (.var "p" .unknown) "left" .unknown)
      (.borrow (.deref (.var "r" .unknown) .unknown) false .unknown) .unknown,
    .evaluate (.var "r" .unknown) .unknown,
    .evaluate (.field (.var "p" .unknown) "right" .unknown) .unknown] .unknown

namespace Context

/-- The pair gets the loan of `x` with the reference and once more with the borrow behind it. -/
theorem last_use_windows_exact_bundling : ∃ c s s₀ A,
    build .pairs .bundling {} = .ok c ∧ c.run = .ok s ∧
    (∀ pos test body loc, Event.test pos test body loc ∉ Function.bundling.events) ∧
    (∀ e ∈ Function.bundling.events, ∀ scrutinee arms type loc,
      e.node ≠ .stmt (.select scrutinee arms type loc)) ∧ A ∈ s.loans ∧ A.start = 3 ∧
    A.holders.map (fun h => (h.binding.name, h.since)) = [("r", 3), ("p", 4), ("p", 5)] ∧
    c.initial = .ok s₀ ∧
    (∀ b since, ⟨b, since⟩ ∈ A.holders ↔
      c.Obtains (Function.bundling.skeleton.visits c s₀) A b since) ∧ A.loop = none ∧
    IsGreatest {p | p = A.start ∨ ∃ b since,
      c.Obtains (Function.bundling.skeleton.visits c s₀) A b since ∧
        c.tree.ReadsAt ⟨b, since⟩ p} 7 := by
  have hok : ((build .pairs .bundling {} >>= fun c => (c, ·) <$> c.run).toOption.any fun r =>
      r.2.loans.any fun A => decide (A.start = 3 ∧ A.stop = 7 ∧
        A.holders.map (fun h => (h.binding.name, h.since)) = [("r", 3), ("p", 4), ("p", 5)])) =
          true := by
    decide +kernel
  obtain ⟨c, s, hbuild, hrun, htest⟩ := exists_run_of_test hok
  obtain ⟨A, hA, htest⟩ := any_eq_true.mp htest
  obtain ⟨hstart, hstop, hnames⟩ := of_decide_eq_true htest
  have honce : ∀ pos test body loc, Event.test pos test body loc ∉ Function.bundling.events := by
    have hall : ∀ e ∈ Function.bundling.events, e.node.kindName ≠ "While" := by decide +kernel
    exact fun pos test body loc he => hall _ he rfl
  have hflat : ∀ e ∈ Function.bundling.events, ∀ scrutinee arms type loc,
      e.node ≠ .stmt (.select scrutinee arms type loc) := by
    have hall : ∀ e ∈ Function.bundling.events, e.node.kindName ≠ "Match" := by decide +kernel
    exact fun e he scrutinee arms type loc hn => hall e he (by rw [hn]; rfl)
  obtain ⟨s₀, h₀, hloans⟩ := last_use_windows_exact hbuild hrun honce hflat
  obtain ⟨hholders, hloop, hgreatest⟩ := hloans A hA
  rw [hstop] at hgreatest
  exact ⟨c, s, s₀, A, hbuild, hrun, honce, hflat, hA, hstart, hnames, h₀, hholders, hloop,
    hgreatest⟩

end Context

end Ownership
