import Ownership.Checker.Request
import Mathlib.Tactic.Common

/-!
# What requests come from

The requests of an expression ask for places on its variables. They break down at callees, or where
the expression has a part of an unknown kind.
-/

namespace Ownership

variable {s : EvalScope} {kept kept' : Bool} {names names' : List String} {known known' : Prop}

/-- Whether a request comes from something with some variables, whose loans are kept or not, and
which is of a known kind or not. -/
inductive Request.Of (s : EvalScope) (kept : Bool) (names : List String) (known : Prop) :
    Request → Prop
  | place {demand : Demand} {p : Place} {span : Span} {k : Bool}
      (hp : ∃ name ∈ names, s.meaning name = some p.base) (hk : k = true → kept = true) :
      Of s kept names known (.place demand p span k)
  | callee {callee : String} {fault : Fault} (h : s.signature? callee = .error fault) :
      Of s kept names known (.fail fault)
  | foreign {kind : String} (h : ¬known) : Of s kept names known (.fail (.unknownExpression kind))

lemma Request.Of.mono {r : Request} (h : r.Of s kept names known)
    (hkept : kept = true → kept' = true)
    (hnames : names ⊆ names') (hknown : known' → known) : r.Of s kept' names' known' := by
  cases h with
  | place hp hk =>
    obtain ⟨name, hname, hbase⟩ := hp
    exact .place ⟨name, hnames hname, hbase⟩ fun h => hkept (hk h)
  | callee h => exact .callee h
  | foreign h => exact .foreign fun h' => h (hknown h')

namespace Expr

variable {e : Expr} {p : Place} {otherwise : List Request}

lemma exists_name_of_place? {meaning : String → Option Binding} (h : e.place? meaning = some p) :
    ∃ name ∈ e.vars, meaning name = some p.base := by
  induction e using Expr.place?.induct generalizing p with
  | case1 name loc =>
    obtain ⟨x, hx, rfl⟩ := Option.map_eq_some_iff.mp h
    exact ⟨name, List.mem_singleton_self name, hx⟩
  | case2 e name loc ih | case3 e loc ih =>
    obtain ⟨q, hq, rfl⟩ := Option.map_eq_some_iff.mp h
    exact ih (p := q) hq
  | case4 e hvar hfield hderef =>
    rw [place?] at h
    · cases h
    · exact hvar
    · exact hfield
    · exact hderef

lemma of_place? (hp : e.place? s.meaning = some p) {demand : Demand} {span : Span} {k : Bool}
    (hk : k = true → kept = true) :
    ∀ r ∈ [Request.place demand p span k], r.Of s kept e.vars known := by
  intro r hr
  rw [List.mem_singleton.mp hr]
  exact .place (exists_name_of_place? hp) hk

lemma of_inspectOr (h : ∀ r ∈ otherwise, r.Of s kept e.vars known) :
    ∀ r ∈ e.inspectOr s otherwise, r.Of s kept e.vars known := by
  rw [inspectOr]
  split
  · rename_i p hp
    exact of_place? hp Bool.noConfusion
  · exact h

lemma of_takeOr (h : ∀ r ∈ otherwise, r.Of s kept e.vars known) :
    ∀ r ∈ e.takeOr s kept otherwise, r.Of s kept e.vars known := by
  rw [takeOr]
  split
  · rename_i p hp
    exact of_place? hp id
  · exact h

lemma of_append {rs rs' : List Request} {e e' : Option String}
    (h : ∀ r ∈ rs, r.Of s kept names (e = none)) (h' : ∀ r ∈ rs', r.Of s kept names' (e' = none)) :
    ∀ r ∈ rs ++ rs', r.Of s kept (names ++ names') (e.or e' = none) := by
  intro r hr
  rw [Option.or_eq_none_iff]
  rcases List.mem_append.mp hr with hr | hr
  · exact (h r hr).mono id (List.subset_append_left _ _) And.left
  · exact (h' r hr).mono id (List.subset_append_right _ _) And.right

mutual

/-- The requests of an expression are about its variables. -/
lemma of_requests (kept : Bool) (e : Expr) :
    ∀ r ∈ e.requests s kept, r.Of s kept e.vars (e.firstForeign? = none) := by
  match e with
  | .absent => exact fun r hr => nomatch hr
  | .literal _ _ => exact fun r hr => nomatch hr
  | .var name loc => exact of_takeOr fun r hr => nomatch hr
  | .field e name loc | .deref e loc =>
    rw [requests]
    exact of_takeOr (of_requests kept e)
  | .borrow e mutable loc =>
    rw [requests]
    split
    · rename_i p hp
      exact of_place? hp id
    · -- A reference to a value keeps none of its loans.
      exact fun r hr => (of_requests false e r hr).mono Bool.noConfusion (List.Subset.refl _) id
  | .call callee args loc =>
    rw [requests]
    split
    · rename_i fault hfault
      intro r hr
      rw [List.mem_singleton.mp hr]
      exact .callee hfault
    · exact fun r hr => (of_argRequests _ 0 args r hr).mono Bool.noConfusion (List.Subset.refl _) id
  | .binary op l r loc =>
    rw [requests]
    refine fun r' hr' => (of_append (of_inspectOr (of_requests false l))
      (of_inspectOr (of_requests false r)) r' hr').mono Bool.noConfusion (List.Subset.refl _) id
  | .construct _ _ args _ => exact of_allRequests kept args
  | .foreign kind =>
    intro r hr
    rw [requests] at hr
    rw [List.mem_singleton.mp hr]
    exact .foreign (Option.some_ne_none kind)

lemma of_allRequests (kept : Bool) (es : List Expr) :
    ∀ r ∈ allRequests s kept es, r.Of s kept (varsAll es) (firstForeignOf? es = none) := by
  match es with
  | [] => exact fun r hr => nomatch hr
  | e :: rest => exact of_append (of_requests kept e) (of_allRequests kept rest)

lemma of_argRequests (modeFor : Nat → PassMode) (index : Nat) (es : List Expr) :
    ∀ r ∈ argRequests s modeFor index es, r.Of s false (varsAll es)
      (firstForeignOf? es = none) := by
  match es with
  | [] => exact fun r hr => nomatch hr
  | e :: rest =>
    refine of_append ?_ (of_argRequests modeFor (index + 1) rest)
    split
    · rename_i p _ hp
      exact of_place? hp id
    · exact of_requests false e

end

lemma of_readRequests (e : Expr) :
    ∀ r ∈ e.readRequests s, r.Of s false e.vars (e.firstForeign? = none) :=
  of_inspectOr (of_requests false e)

end Expr

end Ownership
