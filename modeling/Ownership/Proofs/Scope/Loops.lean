import Ownership.Proofs.Control.Layout
import Ownership.Scope.Builder

/-!
# The loops of a scope tree

The stream of a function closes every scope that it opens. Its scope tree therefore has the loops of
the body, each from its test to the end of its body.
-/

namespace Ownership

variable {b b' : ScopeBuilder} {f : Function} {t : ScopeTree}

namespace ScopeBuilder

variable {b m b' : ScopeBuilder} {ls ls' : List LoopRange} {label pos : Int} {node : Node}
  {e : Event}

/-- The open scopes without the names in them. -/
def frames (b : ScopeBuilder) : List (Int × Option LoopHead) :=
  b.stack.map fun o => (o.label, o.loop)

/-- Whether reading has found loops and left the open scopes alone. -/
structure Finds (b : ScopeBuilder) (ls : List LoopRange) (b' : ScopeBuilder) : Prop where
  loops : b'.tree.loops = b.tree.loops ++ ls
  frames : b'.frames = b.frames

lemma Finds.refl (b : ScopeBuilder) : b.Finds [] b := ⟨(List.append_nil _).symm, rfl⟩

lemma Finds.append (h : b.Finds ls m) (h' : m.Finds ls' b') : b.Finds (ls ++ ls') b' where
  loops := by rw [h'.loops, h.loops, List.append_assoc]
  frames := h'.frames.trans h.frames

lemma Finds.trans (h : b.Finds [] m) (h' : m.Finds [] b') : b.Finds [] b' := h.append h'

lemma Finds.frames_ne (h : b.Finds ls b') (hb : b.frames ≠ []) : b'.frames ≠ [] := by
  rwa [h.frames]

/-! ### Single events -/

lemma finds_useName (b : ScopeBuilder) (name : String) : b.Finds [] (useName label pos b name) := by
  unfold useName
  split
  · exact .refl b
  · exact ⟨(List.append_nil _).symm, rfl⟩

lemma finds_useExpr {e : Expr} (h : b.useExpr label pos e = .ok b') : b.Finds [] b' := by
  unfold useExpr at h
  split at h
  · cases h
  · obtain rfl := Except.ok.inj h
    induction e.vars generalizing b with
    | nil => exact .refl b
    | cons name names ih => exact (finds_useName b name).trans (ih rfl)

lemma finds_useTarget {e : Expr} (h : b.useTarget label pos e = .ok b') : b.Finds [] b' := by
  unfold useTarget at h
  split at h
  · split at h
    · cases h
      exact .refl b
    · cases h
      exact ⟨(List.append_nil _).symm, rfl⟩
  · exact finds_useExpr h

lemma finds_declare (b : ScopeBuilder) (d : Declaration) : b.Finds [] (b.declare label pos d) := by
  unfold declare
  split
  · exact .refl b
  · rename_i top rest hstack
    exact ⟨(List.append_nil _).symm, by simp [frames, hstack]⟩

/-- A node that is executed finds no loop. -/
lemma finds_execute (h : b.execute label pos node = .ok b') : b.Finds [] b' := by
  cases node with
  | function => cases h
  | param p =>
    cases h
    exact finds_declare b _
  | arm a sel =>
    obtain rfl := Except.ok.inj h
    induction a.named generalizing b with
    | nil => exact .refl b
    | cons name names ih => exact (finds_declare b _).trans (ih rfl)
  | stmt stmt =>
    cases stmt with
    | block body => cases h
    | foreign kind => cases h
    | declare name type value mutable loc =>
      obtain ⟨m, hm, h⟩ := bind_eq_ok.mp h
      cases h
      exact (finds_useExpr hm).trans (finds_declare m _)
    | assign target value loc =>
      obtain ⟨m, hm, h⟩ := bind_eq_ok.mp h
      exact (finds_useExpr hm).trans (finds_useTarget h)
    | evaluate value loc | ret value loc | branch test t e loc | select scrutinee arms type loc =>
      exact finds_useExpr h
    | loop test body loc =>
      obtain ⟨m, hm, h⟩ := bind_eq_ok.mp h
      cases h
      exact (finds_useExpr hm).trans ⟨(List.append_nil _).symm, rfl⟩

lemma run_of_step (he : e.kind = .step) (h : b.step e = .ok b') : b.run e = .ok b' := by
  unfold step at h
  split at h
  · cases h
  · rwa [he] at h

lemma finds_step (he : e.kind = .step) (h : b.step e = .ok b') : b.Finds [] b' := by
  have hrun := run_of_step he h
  unfold run at hrun
  split at hrun
  · cases hrun
  · have hexec := finds_execute hrun
    exact ⟨hexec.loops, hexec.frames⟩

lemma pending_of_test {test : Expr} {body : Block} {loc : Span}
    (h : b.step (.test pos test body loc) = .ok b') :
    b'.pending = some ⟨pos, (Stmt.loop test body loc).kindName⟩ := by
  have hrun := run_of_step rfl h
  unfold run at hrun
  split at hrun
  · cases hrun
  · obtain ⟨m, -, hrun⟩ := bind_eq_ok.mp hrun
    cases hrun
    rfl

/-! ### Streams -/

lemma read_append (b : ScopeBuilder) (es es' : List Event) :
    b.read (es ++ es') = b.read es >>= (·.read es') := by
  induction es generalizing b with
  | nil => rfl
  | cons e es ih =>
    rw [List.cons_append, read, read]
    cases b.step e with
    | error f => rfl
    | ok m => exact ih m

lemma read_cons_eq_ok {es : List Event} :
    b.read (e :: es) = .ok b' ↔ ∃ m, b.step e = .ok m ∧ m.read es = .ok b' := bind_eq_ok

lemma read_append_eq_ok {es es' : List Event} :
    b.read (es ++ es') = .ok b' ↔ ∃ m, b.read es = .ok m ∧ m.read es' = .ok b' := by
  rw [read_append]
  exact bind_eq_ok

/-- A scope whose inside leaves the open scopes alone is closed again, and if it is the body of a
loop, the loop is found. -/
lemma finds_scope {start stop : Int} {kind : ScopeKind} {inner : List Event}
    (hb : b.frames ≠ [] ∨ kind ≠ .loopBody)
    (hinner : ∀ {m m' : ScopeBuilder}, m.frames ≠ [] → m.read inner = .ok m' → m.Finds ls m')
    (h : b.read (.enter start node kind :: (inner ++ [.exit start stop node])) = .ok b') :
    b.Finds (ls ++ if kind = .loopBody then
      [⟨(b.pending.getD ⟨start, node.kindName⟩).start, stop,
        (b.pending.getD ⟨start, node.kindName⟩).header⟩] else []) b' := by
  obtain ⟨m, hm, h⟩ := read_cons_eq_ok.mp h
  obtain ⟨m', hm', h⟩ := read_append_eq_ok.mp h
  obtain ⟨b'', hb'', h⟩ := read_cons_eq_ok.mp h
  obtain rfl := Except.ok.inj h
  have henter : m = b.enter (.enter start node kind) := by
    unfold step at hm
    split at hm
    · cases hm
    · exact (Except.ok.inj hm).symm
  have hmframes : m.frames = (start, if kind = .loopBody then
      some (b.pending.getD ⟨start, node.kindName⟩) else none) :: b.frames := by
    rw [henter]
    cases hs : b.stack with
    | nil =>
      have hkind : kind ≠ .loopBody := hb.resolve_left (by simp [frames, hs])
      simp [frames, enter, hs, Event.enter, hkind]
    | cons top rest => simp [frames, enter, hs, Event.enter]
  have hmloops : m.tree.loops = b.tree.loops := by rw [henter]; rfl
  have hfinds := hinner (by rw [hmframes]; simp) hm'
  have hleave : m'.leave (.exit start stop node) = .ok b'' := by
    unfold step at hb''
    split at hb''
    · cases hb''
    · exact hb''
  -- The innermost scope is the one that was entered.
  have htop := hfinds.frames
  rw [hmframes] at htop
  unfold leave at hleave
  split at hleave
  · cases hleave
  · rename_i top rest hst
    simp only [frames, hst, List.map_cons, List.cons.injEq, Prod.mk.injEq] at htop
    obtain ⟨⟨hlabel, hloop⟩, hrest⟩ := htop
    split at hleave
    · cases hleave
    · cases hleave
      refine ⟨?_, hrest⟩
      dsimp only
      rw [hloop, hfinds.loops, hmloops]
      split <;> simp_all [Event.exit]

end ScopeBuilder

/-! ### Bodies -/

open ScopeBuilder

/-- The stream of a part of a body leaves the open scopes alone, and its loops are found. -/
lemma Skeleton.Laid.finds {part : Part} {k : Skeleton} {lo hi : Int} (h : Laid part k lo hi)
    (hb : b.frames ≠ []) (hread : b.read k.events = .ok b') : b.Finds k.loops b' := by
  induction h generalizing b b' with
  | nil | empty =>
    cases hread
    exact .refl b
  | cons _ _ ihk ihl | fork _ _ ihk ihl =>
    obtain ⟨m, hm, hread⟩ := read_append_eq_ok.mp hread
    have hfirst := ihk hb hm
    exact hfirst.append (ihl (hfirst.frames_ne hb) hread)
  | simple =>
    obtain ⟨m, hm, hread⟩ := read_cons_eq_ok.mp hread
    cases hread
    exact finds_step rfl hm
  | block _ ih | scope _ ih =>
    have hscope := finds_scope (.inl hb) ih hread
    rwa [if_neg (by decide), List.append_nil] at hscope
  | branch _ ih | select _ ih =>
    obtain ⟨m, hm, hread⟩ := read_cons_eq_ok.mp hread
    have hhead := finds_step rfl hm
    exact hhead.append (ih (hhead.frames_ne hb) hread)
  | loop _ ih =>
    obtain ⟨m, hm, hread⟩ := read_cons_eq_ok.mp hread
    have htest := finds_step rfl hm
    have hbody := finds_scope (.inl (htest.frames_ne hb)) ih hread
    rw [pending_of_test hm, if_pos rfl] at hbody
    exact htest.append hbody
  | @arm sel p q node a k _ ih =>
    have hinner : ∀ {m m' : ScopeBuilder}, m.frames ≠ [] →
        m.read (.step (p + 1) (.arm a (some sel)) :: k.events) = .ok m' → m.Finds k.loops m' := by
      intro m m' hm hread
      obtain ⟨m₁, hstep, hread⟩ := read_cons_eq_ok.mp hread
      have hhead := finds_step rfl hstep
      exact hhead.append (ih (hhead.frames_ne hm) hread)
    have hscope := finds_scope (.inl hb) hinner hread
    rwa [if_neg (by decide), List.append_nil] at hscope

lemma Param.finds_eventsAll (p : Int) (params : List Param)
    (h : b.read (Param.eventsAll p params) = .ok b') : b.Finds [] b' := by
  induction params generalizing p b with
  | nil =>
    obtain rfl := Except.ok.inj h
    exact .refl b
  | cons param params ih =>
    obtain ⟨m, hm, h⟩ := read_cons_eq_ok.mp h
    exact (finds_step rfl hm).trans (ih (p + 1) h)

lemma ScopeTree.ofEvents_of_ofFunction (h : ofFunction f = .ok t) : ofEvents f.events = .ok t := by
  obtain ⟨events, hevents, h⟩ := bind_eq_ok.mp h
  unfold Function.linearize at hevents
  split at hevents
  · cases hevents
  · rwa [← Except.ok.inj hevents] at h

/-- The loops of the scope tree of a function are those of its body. -/
theorem ScopeTree.loops_ofFunction (h : ofFunction f = .ok t) : t.loops = f.skeleton.loops := by
  obtain ⟨b, hb, h⟩ := bind_eq_ok.mp (ofEvents_of_ofFunction h)
  have htree : t = b.tree := by
    split at h
    · exact (Except.ok.inj h).symm
    · cases h
  rw [htree]
  have hinner : ∀ {m m' : ScopeBuilder}, m.frames ≠ [] → m.read (Param.eventsAll 1 f.params ++
      Stmt.eventsAll f.bodyStart f.body.stmts) = .ok m' → m.Finds f.skeleton.loops m' := by
    intro m m' hm hm'
    obtain ⟨k, hk, hm'⟩ := read_append_eq_ok.mp hm'
    have hparams := Param.finds_eventsAll 1 f.params hk
    rw [← Function.events_skeleton] at hm'
    have hlaid := Stmt.laid_skeletonAll f.bodyStart f.body.stmts
    exact hparams.append (hlaid.finds (hparams.frames_ne hm) hm')
  have hloops := (finds_scope (.inr (by decide)) hinner hb).loops
  rwa [if_neg (by decide), List.append_nil] at hloops

end Ownership
