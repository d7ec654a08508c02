import Ownership.Proofs.Loans.Binders
import Ownership.Proofs.Loans.Spread
import Ownership.Proofs.Loans.Together

/-!
# What a value carries

A value carries loans from two kinds of sources: places whose value it takes over, and borrows that
are granted for it. Sources are found by the structure of the expression: a constructed value has
the sources of its parts, and so does a part of a value. The evaluation of an expression collects
exactly the loans that come with its sources.
-/

namespace Ownership

open List

/-- Where a value comes from: it takes over the value of a place, or it is a reference from a borrow
that has been granted. -/
inductive Source where
  | value (place : Place)
  | loan (place : Place) (kind : LoanKind)

/-- Whether a loan is the one that is granted at a position for a source. -/
def Loan.GrantedFor (pos : Int) (A : Loan) : Source → Prop
  | .value _ => False
  | .loan p kind => A.Answers p kind pos

namespace Context

/-- The sources of the value of an expression that is evaluated in a session. The arguments of a
constructor are evaluated one after another. -/
inductive Yields (c : Context) (pos : Int) (loc : Span) : Session → Expr → Source → Prop
  | place {u : Session} {e : Expr} {p : Place} (h : e.place? (c.meaning pos) = some p) :
      Yields c pos loc u e (.value p)
  | borrow {u : Session} {subject : Expr} {mutable : Bool} {span : Span} {p : Place}
      {k : List Nat × Session} (h : subject.place? (c.meaning pos) = some p)
      (hk : c.lend p (.ofMutable mutable) pos (span.orElse loc) u = .ok k)
      (hgranted : k.2.findings = u.findings) :
      Yields c pos loc u (.borrow subject mutable span) (.loan p (.ofMutable mutable))
  | field {u : Session} {e : Expr} {name : String} {span : Span} {x : Source}
      (h : e.place? (c.meaning pos) = none) (hx : Yields c pos loc u e x) :
      Yields c pos loc u (.field e name span) x
  | deref {u : Session} {e : Expr} {span : Span} {x : Source}
      (h : e.place? (c.meaning pos) = none) (hx : Yields c pos loc u e x) :
      Yields c pos loc u (.deref e span) x
  | construct {u : Session} {typeName : String} {variant : Option String} {before after : List Expr}
      {e : Expr} {span : Span} {k : List Nat × Session} {x : Source}
      (hk : c.performAll pos u (Expr.allRequests (c.evalScope pos loc) true before) = .ok k)
      (hx : Yields c pos loc k.2 e x) :
      Yields c pos loc u (.construct typeName variant (before ++ e :: after) span) x

/-- Whether a source passes on what a binding holds: it takes over a value of the binding, or it
borrows what lies behind a reference of the binding. -/
def PassesOn (c : Context) (b : Binding) : Source → Prop
  | .value p => p.base = b
  | .loan p _ => p.base = b ∧ ∃ r, c.typing.refPrefix? p = .ok (some r)

/-- Whether a loan comes with a source at a position. -/
def Brings (c : Context) (pos : Int) (A : Loan) (x : Source) : Prop :=
  A.GrantedFor pos x ∨
    ∃ b, c.PassesOn b x ∧ A.activeAt pos = true ∧ A.heldBy c.tree b pos = true

variable {c : Context} {pos : Int} {loc span : Span} {u : Session} {e subject : Expr} {x : Source}
  {name : String} {args : List Expr}

/-! ### Sources by cases -/

lemma yields_iff_of_place {p : Place} (h : e.place? (c.meaning pos) = some p) :
    c.Yields pos loc u e x ↔ x = .value p := by
  constructor
  · intro hx
    cases hx with
    | place h' =>
      obtain rfl := Option.mem_unique h h'
      rfl
    | borrow => simp [Expr.place?] at h
    | field h' => simp [Expr.place?, h'] at h
    | deref h' => simp [Expr.place?, h'] at h
    | construct => simp [Expr.place?] at h
  · rintro rfl
    exact .place h

lemma yields_field_iff (h : e.place? (c.meaning pos) = none) :
    c.Yields pos loc u (.field e name span) x ↔ c.Yields pos loc u e x := by
  constructor
  · intro hx
    cases hx with
    | place h' => simp [Expr.place?, h] at h'
    | field _ hx => exact hx
  · exact .field h

lemma yields_deref_iff (h : e.place? (c.meaning pos) = none) :
    c.Yields pos loc u (.deref e span) x ↔ c.Yields pos loc u e x := by
  constructor
  · intro hx
    cases hx with
    | place h' => simp [Expr.place?, h] at h'
    | deref _ hx => exact hx
  · exact .deref h

lemma yields_borrow_iff {mutable : Bool} : c.Yields pos loc u (.borrow subject mutable span) x ↔
    ∃ p k, subject.place? (c.meaning pos) = some p ∧ x = .loan p (.ofMutable mutable) ∧
      c.lend p (.ofMutable mutable) pos (span.orElse loc) u = .ok k ∧
        k.2.findings = u.findings := by
  constructor
  · intro hx
    cases hx with
    | place h => simp [Expr.place?] at h
    | borrow h hk hgranted => exact ⟨_, _, h, rfl, hk, hgranted⟩
  · rintro ⟨p, k, h, rfl, hk, hgranted⟩
    exact .borrow h hk hgranted

lemma yields_construct_iff {typeName : String} {variant : Option String} :
    c.Yields pos loc u (.construct typeName variant args span) x ↔
      ∃ before e after k, args = before ++ e :: after ∧
        c.performAll pos u (Expr.allRequests (c.evalScope pos loc) true before) = .ok k ∧
        c.Yields pos loc k.2 e x := by
  constructor
  · intro hx
    cases hx with
    | place h => simp [Expr.place?] at h
    | construct hk hx => exact ⟨_, _, _, _, rfl, hk, hx⟩
  · rintro ⟨before, e, after, k, rfl, hk, hx⟩
    exact .construct hk hx

/-- A source is based on a variable of the expression. -/
lemma Yields.exists_name {b : Binding} (h : c.Yields pos loc u e x) (hx : c.PassesOn b x) :
    ∃ name ∈ e.vars, c.meaning pos name = some b := by
  induction h with
  | place h =>
    obtain rfl := hx
    exact Expr.exists_name_of_place? h
  | @borrow u subject mutable span p k h =>
    obtain ⟨rfl, -⟩ := hx
    exact Expr.exists_name_of_place? (e := subject) h
  | field _ _ ih => exact ih hx
  | deref _ _ ih => exact ih hx
  | @construct u typeName variant before after e span k x hk _ ih =>
    obtain ⟨name, hname, hb⟩ := ih hx
    refine ⟨name, ?_, hb⟩
    have hall : ∀ es : List Expr, name ∈ Expr.varsAll (es ++ e :: after) := by
      intro es
      induction es with
      | nil => exact mem_append_left _ hname
      | cons d es ih => exact mem_append_right _ ih
    exact hall before

end Context

/-! ### Requests whose loans are not kept -/

/-- Whether a request leaves no loans in the value of the whole expression. -/
def Request.Unkept : Request → Prop
  | place _ _ _ kept => kept = false
  | fail _ => True

lemma Request.Of.unkept {s : EvalScope} {names : List String} {known : Prop} {r : Request}
    (h : r.Of s false names known) : r.Unkept := by
  cases h with
  | place _ hk => exact Bool.eq_false_iff.mpr fun h => Bool.noConfusion (hk h)
  | callee | foreign => exact trivial

/-! ### Loans and their keys -/

/-- Whether a loan is the only one of its place, kind and start. -/
def Loan.Keyed (ls : List Loan) : Prop :=
  ∀ A ∈ ls, ∀ B ∈ ls, B.Answers A.place A.kind A.start → A = B

namespace Context

variable {c : Context} {pos : Int} {loc span : Span} {u m s s' : Session} {p : Place}
  {kind : LoanKind} {k : List Nat × Session} {rs : List Request} {A : Loan}

/-- Requests whose loans are not kept carry none. -/
lemma held_of_unkept (hrs : ∀ r ∈ rs, r.Unkept) (h : c.performAll pos s rs = .ok k) : k.1 = [] := by
  induction rs generalizing s k with
  | nil =>
    cases h
    rfl
  | cons r rest ih =>
    obtain ⟨hr, hrest⟩ := forall_mem_cons.mp hrs
    rw [performAll_cons] at h
    obtain ⟨k₁, hk₁, h⟩ := bind_eq_ok.mp h
    obtain ⟨k₂, hk₂, rfl⟩ := map_eq_ok.mp h
    have hfirst : k₁.1 = [] := by
      cases r with
      | fail f => cases hk₁
      | place demand p span kept =>
        obtain rfl : kept = false := hr
        rw [perform_place] at hk₁
        obtain ⟨k', -, rfl⟩ := map_eq_ok.mp hk₁
        rfl
    rw [hfirst, ih hrest hk₂, append_nil]

lemma performAll_kept_eq_ok {demand : Demand} :
    c.performAll pos s [.place demand p span true] = .ok k ↔ ∃ a k', c.demanded p demand = .ok a ∧
      c.access pos span s a = .ok k' ∧
      k = (if demand = .take then c.carried p pos k'.2 else k'.1, k'.2) := by
  rw [performAll_cons, perform_place]
  simp only [bind_eq_ok, map_eq_ok, if_true]
  constructor
  · rintro ⟨-, ⟨k', ⟨a, ha, hk'⟩, rfl⟩, -, ⟨⟩, rfl⟩
    exact ⟨a, k', ha, hk', by simp⟩
  · rintro ⟨a, k', ha, hk', rfl⟩
    exact ⟨_, ⟨k', ⟨a, ha, hk'⟩, rfl⟩, _, rfl, by simp⟩

lemma performAll_append_eq_ok {rs' : List Request} :
    c.performAll pos s (rs ++ rs') = .ok k ↔ ∃ k₁ k₂, c.performAll pos s rs = .ok k₁ ∧
      c.performAll pos k₁.2 rs' = .ok k₂ ∧ k = (k₁.1 ++ k₂.1, k₂.2) := by
  induction rs generalizing s k with
  | nil =>
    constructor
    · exact fun h => ⟨([], s), k, rfl, h, rfl⟩
    · rintro ⟨-, k₂, ⟨⟩, h₂, rfl⟩
      exact h₂
  | cons r rest ih =>
    simp only [cons_append, performAll_cons, bind_eq_ok, map_eq_ok, ih]
    constructor
    · rintro ⟨k₀, h₀, -, ⟨k₁, k₂, h₁, h₂, rfl⟩, rfl⟩
      exact ⟨_, k₂, ⟨k₀, h₀, k₁, h₁, rfl⟩, h₂, by simp⟩
    · rintro ⟨-, k₂, ⟨k₀, h₀, k₁, h₁, rfl⟩, h₂, rfl⟩
      exact ⟨k₀, h₀, _, ⟨k₁, k₂, h₁, h₂, rfl⟩, by simp⟩

/-! ### Loans of sources

A loan may be granted only after a part of the expression has been evaluated. The lemmas are
therefore
about the loans of some later session of the evaluation. -/

section Loans

variable (hadds : m.Adds pos s') (hb : Loan.Booked s'.loans) (hA : A ∈ s'.loans)

include hadds hb hA

lemma mem_carriedBy_of_adds {t : ScopeTree} :
    A.id ∈ m.carriedBy t p pos ↔ A.activeAt pos = true ∧ A.heldBy t p.base pos = true := by
  rw [Session.carriedBy, mem_map]
  constructor
  · rintro ⟨B, hB, hid⟩
    obtain ⟨hB, hheld⟩ := mem_filter.mp hB
    rw [← hb.eq_of_id (hadds.mem hB) hA hid]
    rwa [Bool.and_eq_true] at hheld
  · rintro ⟨hactive, hheld⟩
    rcases hadds.mem_or hA with hmem | ⟨-, hnone⟩
    · exact ⟨A, mem_filter.mpr ⟨hmem, by rw [hactive, hheld]; rfl⟩, rfl⟩
    · simp [Loan.heldBy, hnone] at hheld

end Loans

/-- A granted borrow carries its own loan and, if the place lies behind a reference, those of the
reference. -/
lemma exists_fst_grantLoan (c : Context) (p : Place) (kind : LoanKind) (pos : Int) (span : Span)
    (behind : Option Place) (s : Session) :
    ∃ B ∈ (c.grantLoan p kind pos span behind s).2.loans, B.Answers p kind pos ∧
      (c.grantLoan p kind pos span behind s).1 = B.id :: (behind.elim [] fun r =>
        (c.grantLoan p kind pos span behind s).2.carriedBy c.tree r pos) := by
  unfold grantLoan
  cases hsame : s.sameLoan? p kind pos with
  | some l =>
    obtain ⟨hl, hans⟩ := Session.sameLoan?_eq_some hsame
    exact ⟨l, hl, hans, by cases behind <;> rfl⟩
  | none =>
    exact ⟨_, mem_append_right _ mem_cons_self, ⟨rfl, rfl, rfl⟩, by cases behind <;> rfl⟩

lemma findings_grantLoan (c : Context) (p : Place) (kind : LoanKind) (pos : Int) (span : Span)
    (behind : Option Place) (s : Session) :
    (c.grantLoan p kind pos span behind s).2.findings = s.findings := by
  unfold grantLoan
  cases s.sameLoan? p kind pos <;> rfl

section Evaluation

variable (hc : c.tracksLoans = true) (hb : Loan.Booked s'.loans) (hkeyed : Loan.Keyed s'.loans)
  (hA : A ∈ s'.loans)

include hc hb hkeyed hA

/-- A borrow brings its loan exactly if it is granted. -/
lemma mem_lend_iff (hu : u.replay = 0) (hk : c.lend p kind pos span u = .ok k)
    (hadds : k.2.Adds pos s') :
    A.id ∈ k.1 ↔ k.2.findings = u.findings ∧ c.Brings pos A (.loan p kind) := by
  have hrefused : ∀ f, k = ([], u.report f) →
      (A.id ∈ k.1 ↔ k.2.findings = u.findings ∧ c.Brings pos A (.loan p kind)) := by
    rintro f rfl
    exact ⟨fun h => (not_mem_nil h).elim, fun h => absurd h.1 (findings_report_ne (.inl hu))⟩
  rcases lend_cases hc hk with ⟨ref, -, hr⟩ | ⟨behind, -, hbehind, ⟨f, -, hr⟩ | ⟨-, rfl⟩⟩
  · exact hrefused _ hr
  · exact hrefused _ hr
  · obtain ⟨B, hB, hans, hfst⟩ := exists_fst_grantLoan c p kind pos span behind u
    have hself : A.id = B.id ↔ A.Answers p kind pos := by
      constructor
      · intro hid
        rwa [hb.eq_of_id hA (hadds.mem hB) hid]
      · intro hAns
        obtain ⟨hplace, hkind, hstart⟩ := hans
        rw [hkeyed B (hadds.mem hB) A hA (by rwa [hplace, hkind, hstart])]
    rw [hfst, mem_cons, hself, findings_grantLoan, Brings, Loan.GrantedFor, eq_self, true_and]
    refine or_congr_right ?_
    cases behind with
    | none => simp [PassesOn, hbehind]
    | some r =>
      rw [Option.elim_some, mem_carriedBy_of_adds hadds hb hA, Typing.base_of_refPrefix? hbehind]
      simp [PassesOn, hbehind]

omit hkeyed in
lemma mem_take_iff (hk : c.performAll pos u [.place .take p span true] = .ok k)
    (hadds : k.2.Adds pos s') : A.id ∈ k.1 ↔ c.Brings pos A (.value p) := by
  obtain ⟨a, k', -, -, rfl⟩ := performAll_kept_eq_ok.mp hk
  rw [if_pos rfl, carried, if_pos hc, mem_carriedBy_of_adds hadds hb hA]
  simp [Brings, PassesOn, Loan.GrantedFor]

omit hkeyed in
lemma mem_takeOr_iff {e : Expr} {otherwise : List Request}
    (hother : e.place? (c.meaning pos) = none → c.performAll pos u otherwise = .ok k →
      (A.id ∈ k.1 ↔ ∃ x, c.Yields pos loc u e x ∧ c.Brings pos A x))
    (hk : c.performAll pos u (e.takeOr (c.evalScope pos loc) true otherwise) = .ok k)
    (hadds : k.2.Adds pos s') : A.id ∈ k.1 ↔ ∃ x, c.Yields pos loc u e x ∧ c.Brings pos A x := by
  rw [Expr.takeOr] at hk
  cases hp : e.place? (c.meaning pos) with
  | none =>
    rw [show e.place? (c.evalScope pos loc).meaning = none from hp] at hk
    exact hother hp hk
  | some p =>
    rw [show e.place? (c.evalScope pos loc).meaning = some p from hp] at hk
    simp only [yields_iff_of_place hp, exists_eq_left]
    exact mem_take_iff hc hb hA hk hadds

omit hc hb hkeyed hA in
lemma mem_unkept_iff {e : Expr} (hrs : ∀ r ∈ rs, r.Unkept) (hk : c.performAll pos u rs = .ok k)
    (hnone : ∀ x, ¬c.Yields pos loc u e x) :
    A.id ∈ k.1 ↔ ∃ x, c.Yields pos loc u e x ∧ c.Brings pos A x := by
  rw [held_of_unkept hrs hk]
  exact ⟨fun h => (not_mem_nil h).elim, fun ⟨x, hx, _⟩ => (hnone x hx).elim⟩

end Evaluation

mutual

/-- The evaluation of an expression collects the loans that come with its sources. -/
theorem mem_evaluate_iff (hc : c.tracksLoans = true) (hb : Loan.Booked s'.loans)
    (hkeyed : Loan.Keyed s'.loans) (hA : A ∈ s'.loans) (e : Expr) {u : Session}
    {k : List Nat × Session} (hu : u.replay = 0)
    (hk : c.performAll pos u (e.requests (c.evalScope pos loc) true) = .ok k)
    (hadds : k.2.Adds pos s') : A.id ∈ k.1 ↔ ∃ x, c.Yields pos loc u e x ∧ c.Brings pos A x := by
  match e with
  | .absent | .literal value span =>
    refine mem_unkept_iff (forall_mem_nil _) hk fun x hx => ?_
    cases hx with
    | place h => cases h
  | .var name span =>
    refine mem_takeOr_iff hc hb hA (fun hp hk => ?_) hk hadds
    refine mem_unkept_iff (forall_mem_nil _) hk fun x hx => ?_
    cases hx with
    | place h =>
      rw [hp] at h
      cases h
  | .field e name span =>
    refine mem_takeOr_iff hc hb hA (fun hp hk => ?_) hk hadds
    simp only [yields_field_iff (Option.map_eq_none_iff.mp hp)]
    exact mem_evaluate_iff hc hb hkeyed hA e hu hk hadds
  | .deref e span =>
    refine mem_takeOr_iff hc hb hA (fun hp hk => ?_) hk hadds
    simp only [yields_deref_iff (Option.map_eq_none_iff.mp hp)]
    exact mem_evaluate_iff hc hb hkeyed hA e hu hk hadds
  | .borrow e mutable span =>
    rw [Expr.requests] at hk
    cases hp : e.place? (c.meaning pos) with
    | none =>
      rw [show e.place? (c.evalScope pos loc).meaning = none from hp] at hk
      refine mem_unkept_iff (fun r hr => (e.of_requests false r hr).unkept) hk fun x hx => ?_
      obtain ⟨p, -, h, -⟩ := yields_borrow_iff.mp hx
      rw [hp] at h
      cases h
    | some p =>
      rw [show e.place? (c.evalScope pos loc).meaning = some p from hp] at hk
      obtain ⟨a, k', ha, hlend, rfl⟩ := performAll_kept_eq_ok.mp hk
      cases ha
      rw [if_neg Demand.noConfusion, mem_lend_iff hc hb hkeyed hA hu hlend hadds]
      constructor
      · exact fun ⟨hgranted, hbrings⟩ => ⟨_, .borrow hp hlend hgranted, hbrings⟩
      · rintro ⟨x, hx, hbrings⟩
        obtain ⟨q, k, hq, rfl, hk, hgranted⟩ := yields_borrow_iff.mp hx
        obtain rfl := Option.mem_unique hp hq
        obtain rfl := ok_inj hlend hk
        exact ⟨hgranted, hbrings⟩
  | .call callee args span =>
    rw [Expr.requests] at hk
    split at hk
    · cases hk
    · refine mem_unkept_iff (fun r hr => (Expr.of_argRequests _ 0 args r hr).unkept) hk
        fun x hx => ?_
      cases hx with
      | place h => cases h
  | .binary op l r span =>
    have hrs : ∀ r' ∈ (Expr.binary op l r span).requests (c.evalScope pos loc) false, r'.Unkept :=
      fun r' hr' => (Expr.of_requests false _ r' hr').unkept
    refine mem_unkept_iff hrs hk fun x hx => ?_
    cases hx with
    | place h => cases h
  | .construct typeName variant args span =>
    rw [mem_evaluateAll_iff hc hb hkeyed hA args hu hk hadds]
    simp only [yields_construct_iff]
    constructor
    · rintro ⟨before, e, after, k₁, hargs, hk₁, x, hx, hbrings⟩
      exact ⟨x, ⟨before, e, after, k₁, hargs, hk₁, hx⟩, hbrings⟩
    · rintro ⟨x, ⟨before, e, after, k₁, hargs, hk₁, hx⟩, hbrings⟩
      exact ⟨before, e, after, k₁, hargs, hk₁, x, hx, hbrings⟩
  | .foreign kind => cases hk

/-- The evaluation of arguments collects the loans that come with the sources of each of them, in
the session in which it is evaluated. -/
theorem mem_evaluateAll_iff (hc : c.tracksLoans = true) (hb : Loan.Booked s'.loans)
    (hkeyed : Loan.Keyed s'.loans) (hA : A ∈ s'.loans) (es : List Expr) {u : Session}
    {k : List Nat × Session} (hu : u.replay = 0)
    (hk : c.performAll pos u (Expr.allRequests (c.evalScope pos loc) true es) = .ok k)
    (hadds : k.2.Adds pos s') :
    A.id ∈ k.1 ↔ ∃ before e after k₁, es = before ++ e :: after ∧
      c.performAll pos u (Expr.allRequests (c.evalScope pos loc) true before) = .ok k₁ ∧
      ∃ x, c.Yields pos loc k₁.2 e x ∧ c.Brings pos A x := by
  match es with
  | [] =>
    cases hk
    simp
  | e :: rest =>
    rw [Expr.allRequests] at hk
    obtain ⟨k₁, k₂, hk₁, hk₂, rfl⟩ := performAll_append_eq_ok.mp hk
    have hrest : k₁.2.Adds pos k₂.2 := adds_performAll hc hk₂
    have hu₁ : k₁.2.replay = 0 := (adds_performAll hc hk₁).replay.trans hu
    rw [mem_append, mem_evaluate_iff hc hb hkeyed hA e hu hk₁ (hrest.trans hadds),
      mem_evaluateAll_iff hc hb hkeyed hA rest hu₁ hk₂ hadds]
    constructor
    · rintro (⟨x, hx, hbrings⟩ | ⟨before, d, after, k₃, rfl, hk₃, hx⟩)
      · exact ⟨[], e, rest, ([], u), rfl, rfl, x, hx, hbrings⟩
      · exact ⟨e :: before, d, after, (k₁.1 ++ k₃.1, k₃.2), rfl,
          performAll_append_eq_ok.mpr ⟨k₁, k₃, hk₁, hk₃, rfl⟩, hx⟩
    · rintro ⟨before, d, after, k₃, hes, hk₃, x, hx, hbrings⟩
      cases before with
      | nil =>
        obtain ⟨rfl, rfl⟩ := cons.inj hes
        cases hk₃
        exact .inl ⟨x, hx, hbrings⟩
      | cons d' before =>
        obtain ⟨rfl, rfl⟩ := cons.inj hes
        obtain ⟨k₄, k₅, hk₄, hk₅, rfl⟩ := performAll_append_eq_ok.mp hk₃
        obtain rfl := ok_inj hk₁ hk₄
        exact .inr ⟨before, d, after, k₅, rfl, hk₅, x, hx, hbrings⟩

end

end Context

end Ownership
