import Ownership.Proofs.Control.Layout
import Ownership.Proofs.Control.Walk

/-!
# Where headers of arms stand

The header of an arm is admitted only where its scrutinee can be used. In the skeleton of a body the
arms come right after the selection that reads the scrutinee, so that they are admitted whenever the
selection was not refused.
-/

namespace Ownership

namespace Skeleton

variable {c : Context} {k : Skeleton} {part : Part} {lo hi : Int}

/-- The places that must be usable where a skeleton begins. -/
def guards (c : Context) : Skeleton → List Place
  | done | loop _ _ _ _ _ => []
  | event e => c.guards e
  | scope _ _ _ _ body => body.guards c
  | noted _ k => k.guards c
  | seq k _ => k.guards c
  | fork k l => k.guards c ++ l.guards c

/-- Whether what has to be usable inside a skeleton has just been read. -/
def Guarded (c : Context) : Skeleton → Prop
  | done | event _ => True
  | scope _ _ _ _ body => body.Guarded c
  | noted _ k => k.Guarded c
  | seq k l => k.Guarded c ∧ l.Guarded c ∧
    ∀ p ∈ l.guards c, ∃ e, k = event e ∧ c.deeds e = [.access (.read p)]
  | fork k l => k.Guarded c ∧ l.Guarded c
  | loop _ _ _ _ inner => inner.Guarded c ∧ inner.guards c = []

/-- Whether an ownership state permits a skeleton to begin. -/
def Admits (c : Context) (k : Skeleton) (f : Flow) : Prop := ∀ p ∈ k.guards c, f.Usable p

lemma admits_nil (h : k.guards c = []) (f : Flow) : k.Admits c f := by
  intro p hp
  rw [h] at hp
  cases hp

lemma guarded_seq_of_nil {l : Skeleton} (hk : k.Guarded c) (hl : l.Guarded c)
    (h : l.guards c = []) :
    (seq k l).Guarded c := by
  refine ⟨hk, hl, fun p hp => ?_⟩
  rw [h] at hp
  cases hp

/-- Only the arms of a selection need something to begin: its scrutinee. -/
lemma Laid.guarded (c : Context) (h : Laid part k lo hi) :
    k.Guarded c ∧ ∀ q ∈ k.guards c, ∃ sel, part.selection? = some sel ∧
      c.scrutineePlace sel = some q := by
  have hnil :
      ∀ {l : List Place}, (∀ q ∈ l, ∃ sel, none = some sel ∧ c.scrutineePlace sel = some q) →
      l = [] := fun hl => List.eq_nil_iff_forall_not_mem.mpr (by simpa using hl)
  induction h with
  | nil | empty | simple => exact ⟨trivial, by simp [guards, Context.guards, Event.step]⟩
  | cons _ _ ihk ihl => exact ⟨guarded_seq_of_nil ihk.1 ihl.1 (hnil ihl.2), ihk.2⟩
  | block _ ih | scope _ ih => exact ih
  | branch _ ih =>
    exact ⟨guarded_seq_of_nil trivial ih.1 (hnil ih.2),
      by simp [guards, Context.guards, Event.step]⟩
  | select _ ih =>
    refine ⟨⟨trivial, ih.1, fun q hq => ⟨_, rfl, ?_⟩⟩, by simp [guards, Context.guards, Event.step]⟩
    obtain ⟨sel, hsel, hplace⟩ := ih.2 q hq
    cases hsel
    rw [Context.scrutineePlace] at hplace
    simp only [Context.deeds, Event.step, Context.nodeDeeds, hplace]
  | loop _ ih => exact ⟨⟨ih.1, hnil ih.2⟩, by simp [guards]⟩
  | fork _ _ ihk ihl =>
    refine ⟨⟨ihk.1, ihl.1⟩, fun q hq => ?_⟩
    exact (List.mem_append.mp hq).elim (ihk.2 q) (ihl.2 q)
  | arm _ ih =>
    exact ⟨guarded_seq_of_nil trivial ih.1 (hnil ih.2),
      fun q hq => ⟨_, rfl, Option.mem_toList.mp hq⟩⟩

lemma Laid.guards_eq_nil (h : Laid part k lo hi) (hpart : part.selection? = none) :
    k.guards c = [] := by
  refine List.eq_nil_iff_forall_not_mem.mpr fun q hq => ?_
  obtain ⟨sel, hsel, -⟩ := (h.guarded c).2 q hq
  cases hpart.symm.trans hsel

end Skeleton

lemma Stmt.guarded_skeleton (c : Context) (p : Int) (stmt : Stmt) :
    (stmt.skeleton p).Guarded c ∧ (stmt.skeleton p).guards c = [] :=
  ⟨((stmt.laid_skeleton p).guarded c).1, (stmt.laid_skeleton p).guards_eq_nil rfl⟩

lemma Stmt.guarded_skeletonAll (c : Context) (p : Int) (stmts : List Stmt) :
    (Stmt.skeletonAll p stmts).Guarded c ∧ (Stmt.skeletonAll p stmts).guards c = [] :=
  ⟨((Stmt.laid_skeletonAll p stmts).guarded c).1, (Stmt.laid_skeletonAll p stmts).guards_eq_nil rfl⟩

end Ownership
