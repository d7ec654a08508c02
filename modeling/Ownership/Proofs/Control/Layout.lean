import Mathlib.Data.Int.Order.Basic
import Mathlib.Data.List.Chain
import Mathlib.Order.Lattice
import Ownership.Proofs.Control.Skeleton

/-!
# Where the parts of a body stand

The events of a body take up consecutive positions in the order of the text. A loop takes up the
positions from its test to the exit of its body; of two loops one contains the other or they are
disjoint. Along a path positions go up, except that the last position of a loop is followed by its
first one.
-/

namespace Ownership

open List

/-- Whether events take up the positions from `lo` on one by one, up to `hi`, which is the first one
after them. -/
def Consecutive : List Event → Int → Int → Prop
  | [], lo, hi => lo = hi
  | e :: es, lo, hi => e.pos = lo ∧ Consecutive es (lo + 1) hi

namespace Consecutive

variable {es es' : List Event} {lo mid hi : Int}

lemma append (h : Consecutive es lo mid) (h' : Consecutive es' mid hi) :
    Consecutive (es ++ es') lo hi := by
  induction es generalizing lo with
  | nil =>
    obtain rfl := h
    exact h'
  | cons e es ih => exact ⟨h.1, ih h.2⟩

variable (h : Consecutive es lo hi)

include h

lemma getElem? {i : Nat} {e : Event} (he : es[i]? = some e) : e.pos = lo + i := by
  induction es generalizing lo i with
  | nil => cases he
  | cons e' es ih =>
    cases i with
    | zero =>
      cases he
      exact h.1.trans (Int.add_zero lo).symm
    | succ i =>
      rw [ih h.2 he]
      omega

lemma length : hi = lo + es.length := by
  induction es generalizing lo with
  | nil => exact h.symm.trans (Int.add_zero lo).symm
  | cons e es ih =>
    rw [ih h.2, length_cons]
    omega

lemma le : lo ≤ hi := by
  have := h.length
  omega

lemma bounds {e : Event} (he : e ∈ es) : lo ≤ e.pos ∧ e.pos < hi := by
  obtain ⟨i, hi, rfl⟩ := getElem_of_mem he
  have := h.getElem? (getElem?_eq_getElem hi)
  have := h.length
  omega

lemma ascending : es.Pairwise fun e e' => e.pos < e'.pos := by
  refine pairwise_iff_getElem.mpr fun i j hi hj hij => ?_
  have := h.getElem? (getElem?_eq_getElem hi)
  have := h.getElem? (getElem?_eq_getElem hj)
  omega

end Consecutive

namespace Skeleton

def isScope : Skeleton → Bool
  | scope .. => true
  | _ => false

/-- Whether a skeleton takes up the positions from `lo` on up to `hi`, which is the first one after
it. The body of a loop is a scope. -/
def Spans : Skeleton → Int → Int → Prop
  | done, lo, hi => lo = hi
  | event e, lo, hi => e.pos = lo ∧ hi = lo + 1
  | scope start stop _ _ body, lo, hi => start = lo ∧ hi = stop + 1 ∧ body.Spans (lo + 1) stop
  | noted _ k, lo, hi => k.Spans lo hi
  | seq k l, lo, hi => ∃ mid, k.Spans lo mid ∧ l.Spans mid hi
  | fork k l, lo, hi => ∃ mid, k.Spans lo mid ∧ l.Spans mid hi
  | loop pos _ _ _ inner, lo, hi => pos = lo ∧ inner.isScope = true ∧ inner.Spans (lo + 1) hi

/-- What a skeleton of a body is one of: a statement, statements one after another, or ways that are
whole scopes, for instance the arms of a selection. -/
inductive Part where
  | stmt
  | stmts
  | ways (sel : Option Selection)

/-- The selection whose arms a part of a body consists of. -/
def Part.selection? : Part → Option Selection
  | ways sel => sel
  | stmt | stmts => none

/-- Whether a skeleton is that of a part of a body from a position on, up to another one. -/
inductive Laid : Part → Skeleton → Int → Int → Prop
  | nil (p : Int) : Laid .stmts done p p
  | cons {k l : Skeleton} {lo mid hi : Int} : Laid .stmt k lo mid → Laid .stmts l mid hi →
    Laid .stmts (seq k l) lo hi
  | simple {p : Int} {stmt : Stmt} : (∀ test body loc, stmt ≠ .loop test body loc) →
    Laid .stmt (noted p (event (.step p (.stmt stmt)))) p (p + 1)
  | block {p q : Int} {node : Node} {k : Skeleton} : Laid .stmts k (p + 1) q →
    Laid .stmt (noted p (scope p q node .block k)) p (q + 1)
  | branch {p hi : Int} {k : Skeleton} {test : Expr} {t : Block} {e : Option Block} {loc : Span} :
    Laid (.ways none) k (p + 1) hi →
    Laid .stmt (noted p (seq (event (.step p (.stmt (.branch test t e loc)))) k)) p hi
  | select {p hi : Int} {k : Skeleton} {scrutinee : Expr} {arms : List Arm} {type : Option TypeId}
    {loc : Span} : Laid (.ways (some ⟨scrutinee, type, p⟩)) k (p + 1) hi →
    Laid .stmt (noted p (seq (event (.step p (.stmt (.select scrutinee arms type loc)))) k)) p hi
  | loop {p q : Int} {k : Skeleton} {test : Expr} {body : Block} {loc : Span} :
    Laid .stmts k (p + 2) q → Laid .stmt (noted p (loop p test body loc
      (scope (p + 1) q (.stmt (.block body)) .loopBody k))) p (q + 1)
  | empty (p : Int) (sel : Option Selection) : Laid (.ways sel) done p p
  | fork {sel : Option Selection} {k l : Skeleton} {lo mid hi : Int} : Laid (.ways sel) k lo mid →
    Laid (.ways sel) l mid hi → Laid (.ways sel) (fork k l) lo hi
  | scope {p q : Int} {node : Node} {k : Skeleton} : Laid .stmts k (p + 1) q →
    Laid (.ways none) (scope p q node .branch k) p (q + 1)
  | arm {sel : Selection} {p q : Int} {node : Node} {a : Arm} {k : Skeleton} :
    Laid .stmts k (p + 2) q → Laid (.ways (some sel))
      (scope p q node .arm (seq (event (.step (p + 1) (.arm a (some sel)))) k)) p (q + 1)

variable {part : Part} {k : Skeleton} {lo hi : Int}

lemma Laid.spans (h : Laid part k lo hi) : k.Spans lo hi := by
  induction h with
  | nil | empty => rfl
  | simple => exact ⟨rfl, rfl⟩
  | block _ ih | scope _ ih => exact ⟨rfl, rfl, ih⟩
  | branch _ ih | select _ ih => exact ⟨_, ⟨rfl, rfl⟩, ih⟩
  | loop _ ih => exact ⟨rfl, rfl, rfl, rfl, by rwa [Int.add_assoc]⟩
  | cons _ _ ihk ihl | fork _ _ ihk ihl => exact ⟨_, ihk, ihl⟩
  | arm _ ih => exact ⟨rfl, rfl, _, ⟨rfl, rfl⟩, by rwa [Int.add_assoc]⟩

lemma Laid.of_eq {hi' : Int} (h : Laid part k lo hi) (hhi : hi = hi') :
    Laid part k lo hi' := hhi ▸ h

end Skeleton

open Skeleton (Laid)

mutual

/-- A statement takes up as many positions as it is wide. -/
lemma Stmt.laid_skeleton (p : Int) (stmt : Stmt) :
    Laid .stmt (stmt.skeleton p) p (p + stmt.width) := by
  match stmt with
  | .block b =>
    obtain ⟨q, k, hk, hq, hlaid⟩ := b.laid_skeleton .block p
    rw [Stmt.skeleton, Stmt.width, hk, ← hq]
    exact .block hlaid
  | .declare _ _ _ _ _ | .assign _ _ _ | .evaluate _ _ | .ret _ _ | .foreign _ =>
    rw [Stmt.skeleton, Stmt.width]
    · exact .simple (by simp)
    all_goals simp
  | .branch test t e loc =>
    obtain ⟨q, k, hk, hq, hlaid⟩ := t.laid_skeleton .branch (p + 1)
    have he := Block.laid_skeletonOpt (p + 1 + t.width) e
    rw [Stmt.skeleton, Stmt.width, hk]
    refine .branch (.of_eq (.fork (.of_eq (.scope hlaid) hq) he) ?_)
    omega
  | .loop test body loc =>
    obtain ⟨q, k, hk, hq, hlaid⟩ := body.laid_skeleton .loopBody (p + 1)
    rw [Stmt.skeleton, Stmt.width, hk]
    refine .of_eq (.loop ?_) (show q + 1 = _ by omega)
    rwa [Int.add_assoc] at hlaid
  | .select scrutinee arms type loc =>
    rw [Stmt.skeleton, Stmt.width]
    refine .select (.of_eq (Arm.laid_skeletonAll ⟨scrutinee, type, p⟩ (p + 1) none arms _ rfl) ?_)
    omega

lemma Block.laid_skeleton (kind : ScopeKind) (p : Int) (b : Block) : ∃ q k,
    b.skeleton kind p = .scope p q (.stmt (.block b)) kind k ∧ q + 1 = p + b.width ∧
      Laid .stmts k (p + 1) q := by
  match b with
  | .mk stmts l =>
    rw [Block.skeleton, Block.width]
    exact ⟨_, _, rfl, by omega, Stmt.laid_skeletonAll (p + 1) stmts⟩

lemma Block.laid_skeletonOpt (p : Int) (b : Option Block) :
    Laid (.ways none) (Block.skeletonOpt p b) p (p + Block.widthOpt b) := by
  match b with
  | none => exact .of_eq (.empty p _) (Int.add_zero p).symm
  | some b =>
    obtain ⟨q, k, hk, hq, hlaid⟩ := b.laid_skeleton .branch p
    rw [Block.skeletonOpt, Block.widthOpt, hk, ← hq]
    exact .scope hlaid

lemma Stmt.laid_skeletonAll (p : Int) (stmts : List Stmt) :
    Laid .stmts (Stmt.skeletonAll p stmts) p (p + Stmt.widthAll stmts) := by
  match stmts with
  | [] => exact .of_eq (.nil p) (Int.add_zero p).symm
  | stmt :: rest =>
    rw [Stmt.skeletonAll, Stmt.widthAll]
    refine .cons (stmt.laid_skeleton p) (.of_eq (Stmt.laid_skeletonAll (p + stmt.width) rest) ?_)
    omega

lemma Arm.laid_skeletonAll (sel : Selection) (p : Int) (others : Option Skeleton) (arms : List Arm)
    (lo : Int) (h : match others with | none => lo = p | some k => Laid (.ways (some sel)) k lo p) :
    Laid (.ways (some sel)) (Arm.skeletonAll sel p others arms) lo (p + Arm.widthAll arms) := by
  match arms with
  | [] =>
    rw [Arm.skeletonAll, Arm.widthAll, Int.natCast_zero, Int.add_zero]
    cases others with
    | none =>
      obtain rfl := h
      exact .empty lo _
    | some k => exact h
  | .mk v (.mk stmts l) binders byRef loc :: rest =>
    rw [Arm.skeletonAll, Arm.widthAll, Arm.width, Block.width]
    have harm : Laid (.ways (some sel)) (.scope p (p + 2 + Stmt.widthAll stmts)
        (.stmt (.block (.mk stmts l))) .arm
        (.seq (.event (.step (p + 1) (.arm (.mk v (.mk stmts l) binders byRef loc) (some sel))))
          (Stmt.skeletonAll (p + 2) stmts))) p (p + 3 + Stmt.widthAll stmts) :=
      .of_eq (.arm (Stmt.laid_skeletonAll (p + 2) stmts)) (by omega)
    refine .of_eq (Arm.laid_skeletonAll sel (p + 3 + Stmt.widthAll stmts) (some _) rest lo ?_)
      (by omega)
    cases others with
    | none =>
      obtain rfl := h
      exact harm
    | some k => exact .fork h harm

end

lemma Stmt.spans_skeletonAll (p : Int) (stmts : List Stmt) :
    (Stmt.skeletonAll p stmts).Spans p (p + Stmt.widthAll stmts) :=
  (Stmt.laid_skeletonAll p stmts).spans

lemma Function.spans_skeleton (f : Function) : ∃ hi, f.skeleton.Spans f.bodyStart hi :=
  ⟨_, Stmt.spans_skeletonAll f.bodyStart f.body.stmts⟩

namespace Skeleton

variable {lo hi : Int} {k : Skeleton} {e : Event} {π : List Event} {r : Bool}

/-! ### Positions of events -/

variable (h : k.Spans lo hi)

include h

lemma Spans.consecutive : Consecutive k.events lo hi := by
  induction k generalizing lo hi with
  | done => exact h
  | event e => exact ⟨h.1, h.2.symm⟩
  | scope start stop node kind body ih =>
    obtain ⟨rfl, rfl, hb⟩ := h
    exact ⟨rfl, (ih hb).append ⟨rfl, rfl⟩⟩
  | noted pos k ih => exact ih h
  | seq k l ihk ihl | fork k l ihk ihl =>
    obtain ⟨mid, hk, hl⟩ := h
    exact (ihk hk).append (ihl hl)
  | loop pos test body loc inner ih => exact ⟨h.1, ih h.2.2⟩

lemma Spans.le : lo ≤ hi := h.consecutive.le

lemma Spans.mem_events (he : e ∈ k.events) :
    lo ≤ e.pos ∧ e.pos < hi := h.consecutive.bounds he

lemma Spans.pairwise_events :
    k.events.Pairwise fun e e' => e.pos < e'.pos := h.consecutive.ascending

/-! ### Loops -/

def stop : Skeleton → Int
  | scope _ stop _ _ _ => stop
  | _ => 0

/-- The loops of a skeleton in the order of their ends. -/
def loops : Skeleton → List LoopRange
  | done | event _ => []
  | scope _ _ _ _ k | noted _ k => k.loops
  | seq k l | fork k l => k.loops ++ l.loops
  | loop pos test body loc inner =>
    inner.loops ++ [⟨pos, inner.stop, (Stmt.loop test body loc).kindName⟩]

lemma Spans.stop_eq (hk : k.isScope = true) : k.stop = hi - 1 := by
  cases k with
  | scope start stop node kind body =>
    obtain ⟨-, rfl, -⟩ := h
    exact (Int.add_sub_cancel stop 1).symm
  | _ => cases hk

/-- The loops of a body lie in it. -/
lemma Spans.mem_loops {m : LoopRange} (hm : m ∈ k.loops) :
    lo ≤ m.start ∧ m.start ≤ m.stop ∧ m.stop < hi := by
  induction k generalizing lo hi with
  | done => cases hm
  | event e => cases hm
  | scope start stop node kind body ih =>
    obtain ⟨rfl, rfl, hb⟩ := h
    have := ih hb hm
    omega
  | noted pos k ih => exact ih h hm
  | seq k l ihk ihl | fork k l ihk ihl =>
    obtain ⟨mid, hk, hl⟩ := h
    have hk' := hk.le
    have hl' := hl.le
    rcases mem_append.mp hm with hm | hm
    · have := ihk hk hm
      omega
    · have := ihl hl hm
      omega
  | loop pos test body loc inner ih =>
    obtain ⟨rfl, hscope, hin⟩ := h
    have hle := hin.le
    rcases mem_append.mp hm with hm | hm
    · have := ih hin hm
      omega
    · rw [mem_singleton.mp hm]
      dsimp only
      rw [hin.stop_eq hscope]
      cases inner with
      | scope start stop node kind body =>
        obtain ⟨rfl, rfl, hb⟩ := hin
        have := hb.le
        omega
      | _ => cases hscope

/-- Two loops are the same, or they are apart, or one lies behind the start of the other one and
ends inside it. -/
lemma Spans.loops_cases {l m : LoopRange} (hl : l ∈ k.loops) (hm : m ∈ k.loops) :
    l = m ∨ l.stop < m.start ∨ m.stop < l.start ∨
      (l.start < m.start ∧ m.stop ≤ l.stop) ∨ (m.start < l.start ∧ l.stop ≤ m.stop) := by
  induction k generalizing lo hi with
  | done => cases hl
  | event e => cases hl
  | scope start stop node kind body ih => exact ih h.2.2 hl hm
  | noted pos k ih => exact ih h hl hm
  | seq k₁ k₂ ih₁ ih₂ | fork k₁ k₂ ih₁ ih₂ =>
    obtain ⟨mid, h₁, h₂⟩ := h
    rcases mem_append.mp hl with hl | hl <;> rcases mem_append.mp hm with hm | hm
    · exact ih₁ h₁ hl hm
    · have := h₁.mem_loops hl
      have := h₂.mem_loops hm
      omega
    · have := h₂.mem_loops hl
      have := h₁.mem_loops hm
      omega
    · exact ih₂ h₂ hl hm
  | loop pos test body loc inner ih =>
    obtain ⟨rfl, hscope, hin⟩ := h
    have hstop := hin.stop_eq hscope
    rcases mem_append.mp hl with hl | hl <;> rcases mem_append.mp hm with hm | hm
    · exact ih hin hl hm
    · have := hin.mem_loops hl
      rw [mem_singleton.mp hm]
      dsimp only
      omega
    · have := hin.mem_loops hm
      rw [mem_singleton.mp hl]
      dsimp only
      omega
    · rw [mem_singleton.mp hl, mem_singleton.mp hm]
      exact .inl rfl

/-! ### Positions along paths -/

omit h in
/-- A path consists of events of the body. -/
lemma mem_events_of_path (hπ : k.Path π r) : ∀ e ∈ π, e ∈ k.events := by
  induction k generalizing π r with
  | done | event e' =>
    rw [hπ.1]
    exact fun e he => he
  | scope start stop node kind body ih =>
    obtain ⟨ρ, hρ, rfl⟩ := hπ
    intro e he
    rcases mem_cons.mp he with rfl | he
    · exact mem_cons_self
    · refine mem_cons_of_mem _ ?_
      rcases mem_append.mp he with he | he
      · exact mem_append_left _ (ih hρ e he)
      · split at he
        · cases he
        · exact mem_append_right _ he
  | noted pos k ih => exact ih hπ
  | seq k l ihk ihl =>
    rcases hπ with ⟨hπ, -⟩ | ⟨π₁, π₂, h₁, h₂, rfl⟩
    · exact fun e he => mem_append_left _ (ihk hπ e he)
    · intro e he
      rcases mem_append.mp he with he | he
      · exact mem_append_left _ (ihk h₁ e he)
      · exact mem_append_right _ (ihl h₂ e he)
  | fork k l ihk ihl =>
    rcases hπ with hπ | hπ
    · exact fun e he => mem_append_left _ (ihk hπ e he)
    · exact fun e he => mem_append_right _ (ihl hπ e he)
  | loop pos test body loc inner ih =>
    induction hπ with
    | exit => exact fun e he => mem_singleton.mp he ▸ mem_cons_self
    | again hπ _ ihρ =>
      intro e he
      rcases mem_cons.mp he with rfl | he
      · exact mem_cons_self
      · rcases mem_append.mp he with he | he
        · exact mem_cons_of_mem _ (ih hπ e he)
        · exact ihρ e he
    | leave hπ =>
      intro e he
      rcases mem_cons.mp he with rfl | he
      · exact mem_cons_self
      · exact mem_cons_of_mem _ (ih hπ e he)

lemma Spans.mem_path (hπ : k.Path π r) (he : e ∈ π) : lo ≤ e.pos ∧ e.pos < hi :=
  h.mem_events (mem_events_of_path hπ e he)

/-- A step along a path: to a later position, or from the end of a loop back to its start. -/
def Steps (ls : List LoopRange) (e e' : Event) : Prop :=
  e.pos < e'.pos ∨ ∃ m ∈ ls, e.pos = m.stop ∧ e'.pos = m.start

omit h in
lemma Steps.mono {ls ls' : List LoopRange} (h : ∀ m ∈ ls, m ∈ ls') {e' : Event}
    (hs : Steps ls e e') :
    Steps ls' e e' :=
  hs.imp_right fun ⟨m, hm, hpos⟩ => ⟨m, h m hm, hpos⟩

omit h in
lemma exists_exit_of_path (hk : k.isScope = true) (hπ : k.Path π false) :
    ∃ ρ e, π = ρ ++ [e] ∧ e.pos = k.stop := by
  cases k with
  | scope start stop node kind body =>
    obtain ⟨ρ, -, rfl⟩ := hπ
    exact ⟨.enter start node kind :: ρ, .exit start stop node, rfl, rfl⟩
  | _ => cases hk

/-- A path goes on to the next position, or ahead, or round a loop. -/
lemma Spans.isChain_path (hπ : k.Path π r) : π.IsChain (Steps k.loops) := by
  induction k generalizing lo hi π r with
  | done =>
    rw [hπ.1]
    exact .nil
  | event e =>
    rw [hπ.1]
    exact .singleton e
  | scope start stop node kind body ih =>
    obtain ⟨rfl, rfl, hb⟩ := h
    obtain ⟨ρ, hρ, rfl⟩ := hπ
    refine isChain_cons.mpr ⟨fun e he => .inl ?_, isChain_append.mpr ⟨ih hb hρ, ?_, ?_⟩⟩
    · change start < e.pos
      rcases mem_append.mp (mem_of_mem_head? he) with he | he
      · have := hb.mem_path hρ he
        omega
      · split at he
        · cases he
        · rw [mem_singleton.mp he]
          have := hb.le
          change start < stop
          omega
    · split
      · exact .nil
      · exact .singleton _
    · intro e he e' he'
      split at he'
      · cases he'
      · rw [← Option.some.inj he']
        exact .inl (hb.mem_path hρ (mem_of_mem_getLast? he)).2
  | noted pos k ih => exact ih h hπ
  | seq k l ihk ihl =>
    obtain ⟨mid, hk, hl⟩ := h
    rcases hπ with ⟨hπ, -⟩ | ⟨π₁, π₂, h₁, h₂, rfl⟩
    · exact (ihk hk hπ).imp fun e e' => Steps.mono fun m hm => mem_append_left _ hm
    · refine isChain_append.mpr ⟨?_, ?_, fun e he e' he' => .inl ?_⟩
      · exact (ihk hk h₁).imp fun e e' => Steps.mono fun m hm => mem_append_left _ hm
      · exact (ihl hl h₂).imp fun e e' => Steps.mono fun m hm => mem_append_right _ hm
      · have := hk.mem_path h₁ (mem_of_mem_getLast? he)
        have := hl.mem_path h₂ (mem_of_mem_head? he')
        omega
  | fork k l ihk ihl =>
    obtain ⟨mid, hk, hl⟩ := h
    rcases hπ with hπ | hπ
    · exact (ihk hk hπ).imp fun e e' => Steps.mono fun m hm => mem_append_left _ hm
    · exact (ihl hl hπ).imp fun e e' => Steps.mono fun m hm => mem_append_right _ hm
  | loop pos test body loc inner ih =>
    obtain ⟨rfl, hscope, hin⟩ := h
    have hbody : ∀ {ρ r}, inner.Path ρ r →
        (Event.test pos test body loc :: ρ).IsChain
          (Steps (loop pos test body loc inner).loops) := by
      intro ρ r hρ
      refine isChain_cons.mpr ⟨fun e he => .inl ?_, ?_⟩
      · have := hin.mem_path hρ (mem_of_mem_head? he)
        change pos < e.pos
        omega
      · exact (ih hin hρ).imp fun e e' => Steps.mono fun m hm => mem_append_left _ hm
    induction hπ with
    | exit => exact .singleton _
    | @again π ρ r hπ hρ ihρ =>
      rw [← cons_append]
      refine isChain_append.mpr ⟨hbody hπ, ihρ, fun e he e' he' => ?_⟩
      -- The first event of the remaining rounds is the test.
      have htest : e'.pos = pos := by
        cases hρ <;> rw [← Option.some.inj he'] <;> rfl
      obtain ⟨π', e₁, rfl, he₁⟩ := exists_exit_of_path hscope hπ
      rw [← cons_append, getLast?_concat] at he
      rw [← Option.some.inj he]
      exact .inr ⟨_, mem_append_right _ (mem_singleton_self _), he₁, htest⟩
    | leave hπ => exact hbody hπ

end Skeleton

end Ownership
