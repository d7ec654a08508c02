import Ownership.Proofs.Scope.Nesting

/-!
# What a part of a body leaves behind

The ways of a fork and the body of a loop are made of whole scopes. No part of a body changes which
scopes are open, and what is alive before it is alive after it; behind whole scopes nothing else is.
The header of an arm belongs to the selection around it, and what is alive at the selection is still
alive there.
-/

namespace Ownership

open List

def Event.selection? (e : Event) : Option Selection :=
  match e.node with
  | .stmt (.select scrutinee _ type _) => some ⟨scrutinee, type, e.pos⟩
  | _ => none

lemma Event.selection?_eq_some {e : Event} {sel : Selection} (h : e.selection? = some sel) :
    e.pos = sel.label ∧ ∃ arms loc, e.node = .stmt (.select sel.scrutinee arms sel.type loc) := by
  unfold selection? at h
  split at h
  · rename_i scrutinee arms type loc hn
    cases h
    exact ⟨rfl, arms, loc, hn⟩
  · cases h

namespace Skeleton

variable {part : Part} {k : Skeleton} {lo hi : Int} {sel : Option Selection}

/-- The selection that a skeleton begins, if it is a single event. -/
def selection? : Skeleton → Option Selection
  | event e => e.selection?
  | _ => none

/-- Whether a skeleton is made of whole scopes. -/
def Enclosed : Skeleton → Prop
  | done | scope .. => True
  | fork k l => k.Enclosed ∧ l.Enclosed
  | event _ | noted .. | seq .. | loop .. => False

/-- Whether a skeleton is one of statements, where `sel` is the selection around it: the ways of
forks and the bodies of loops are whole scopes, headers of arms belong to their selection, and what
is noted begins at its position. -/
def Framed (sel : Option Selection) : Skeleton → Prop
  | done => True
  | event e => e.kind = .step ∧ ∀ a s, e.node = .arm a (some s) → sel = some s
  | scope _ _ _ _ body => body.Framed sel
  | noted pos k => k.Framed sel ∧ ∀ lo hi, k.Spans lo hi → lo = pos ∧ lo < hi
  | seq k l => k.Framed sel ∧ l.Framed (k.selection?.or sel)
  | fork k l => (k.Enclosed ∧ k.Framed sel) ∧ l.Enclosed ∧ l.Framed sel
  | loop _ _ _ _ inner => inner.Enclosed ∧ inner.Framed sel

lemma Laid.enclosed (h : Laid part k lo hi) (hpart : part = .ways sel) : k.Enclosed := by
  induction h with
  | empty | scope | arm => exact trivial
  | fork _ _ ihk ihl => exact ⟨ihk hpart, ihl hpart⟩
  | nil | cons | simple | block | branch | select | loop => cases hpart

/-- In a body the headers of arms stand inside their selections. -/
lemma Laid.framed (h : Laid part k lo hi) (hsel : ∀ s, part.selection? = some s → sel = some s) :
    k.Framed sel := by
  induction h generalizing sel with
  | nil | empty => exact trivial
  | @cons k l lo mid hi hk _ ihk ihl =>
    have hnone : k.selection? = none := by cases hk <;> rfl
    refine ⟨ihk (by simp [Part.selection?]), ?_⟩
    rw [hnone]
    exact ihl (by simp [Part.selection?])
  | simple =>
    refine ⟨⟨rfl, by simp [Event.step]⟩, ?_⟩
    rintro lo hi ⟨hpos, rfl⟩
    exact ⟨hpos.symm, by omega⟩
  | block hk ih =>
    refine ⟨ih (by simp [Part.selection?]), ?_⟩
    rintro lo hi ⟨rfl, rfl, hbody⟩
    have := hbody.le
    exact ⟨rfl, by omega⟩
  | branch hk ih =>
    refine ⟨⟨⟨rfl, by simp [Event.step]⟩, ih (by simp [Part.selection?])⟩, ?_⟩
    rintro lo hi ⟨mid, ⟨hpos, rfl⟩, hrest⟩
    have := Skeleton.Spans.le hrest
    exact ⟨hpos.symm, by omega⟩
  | select hk ih =>
    refine ⟨⟨⟨rfl, by simp [Event.step]⟩, ih fun s hs => ?_⟩, ?_⟩
    · exact congrArg (Option.or · sel) hs
    · rintro lo hi ⟨mid, ⟨hpos, rfl⟩, hrest⟩
      have := Skeleton.Spans.le hrest
      exact ⟨hpos.symm, by omega⟩
  | loop hk ih =>
    refine ⟨⟨trivial, ih (by simp [Part.selection?])⟩, ?_⟩
    rintro lo hi ⟨hpos, -, hrest⟩
    have := Skeleton.Spans.le hrest
    exact ⟨hpos.symm, by omega⟩
  | fork hk hl ihk ihl => exact ⟨⟨hk.enclosed rfl, ihk hsel⟩, hl.enclosed rfl, ihl hsel⟩
  | scope hk ih => exact ih (by simp [Part.selection?])
  | @arm s p q node a k hk ih =>
    refine ⟨⟨rfl, fun a' s' hs => ?_⟩, ih (by simp [Part.selection?])⟩
    simp only [Event.step, Node.arm.injEq] at hs
    exact hsel s' hs.2

end Skeleton

lemma Stmt.framed_skeletonAll (sel : Option Selection) (p : Int) (stmts : List Stmt) :
    (Stmt.skeletonAll p stmts).Framed sel :=
  (Stmt.laid_skeletonAll p stmts).framed (by simp [Skeleton.Part.selection?])

lemma Function.mem_events_of_skeleton (f : Function) {e : Event} (he : e ∈ f.skeleton.events) :
    e ∈ f.events := by
  rw [Function.events_skeleton] at he
  exact mem_cons_of_mem _ (mem_append_left _ (mem_append_right _ he))

namespace Skeleton

variable {t : ScopeTree} {es : List Event} {k : Skeleton} {sel : Option Selection} {lo hi : Int}
  {x : Binding}

lemma forall_events_scope {P : Event → Prop} {start stop : Int} {node : Node} {kind : ScopeKind}
    (h : ∀ e ∈ (scope start stop node kind k).events, P e) :
    P (.enter start node kind) ∧ (∀ e ∈ k.events, P e) ∧ P (.exit start stop node) := by
  obtain ⟨henter, h⟩ := forall_mem_cons.mp h
  obtain ⟨hbody, hexit⟩ := forall_mem_append.mp h
  exact ⟨henter, hbody, hexit _ mem_cons_self⟩

/-! ### Open scopes and bindings that are alive -/

/-- The same scopes are open before and behind a part of a body. -/
theorem Framed.upTo_iff (hk : k.Framed sel) (h : t.Nests es) (hspans : k.Spans lo hi)
    (hsub : ∀ e ∈ k.events, e ∈ es) {s : Scope} (hs : s ∈ t.scopes) : s.UpTo hi ↔ s.UpTo lo := by
  induction k generalizing sel lo hi with
  | done =>
    obtain rfl : lo = hi := hspans
    exact .rfl
  | event e =>
    obtain ⟨rfl, rfl⟩ := hspans
    exact h.upTo_step (hsub e mem_cons_self) hk.1 hs
  | scope start stop node kind body ih =>
    obtain ⟨rfl, rfl, hbody⟩ := hspans
    obtain ⟨henter, hsub, hexit⟩ := forall_events_scope hsub
    obtain ⟨S, hS, hstart, hstop⟩ := h.exits _ hexit rfl
    have hleave : s.UpTo (stop + 1) ↔ s.UpTo stop ∧ s ≠ S := h.upTo_exit hexit rfl hS hstop hs
    have hcome : s.UpTo (start + 1) ↔ s = S ∨ s.UpTo start := h.upTo_enter henter rfl hS hstart hs
    rw [hleave, ih hk hbody hsub, hcome]
    constructor
    · rintro ⟨heq | hup, hne⟩
      · exact absurd heq hne
      · exact hup
    · intro hup
      refine ⟨.inr hup, ?_⟩
      rintro rfl
      exact absurd hup.1 hstart.not_lt
  | noted pos k ih => exact ih hk.1 hspans hsub
  | seq k l ihk ihl =>
    obtain ⟨mid, hspansk, hspansl⟩ := hspans
    obtain ⟨hsubk, hsubl⟩ := forall_mem_append.mp hsub
    rw [ihl hk.2 hspansl hsubl, ihk hk.1 hspansk hsubk]
  | fork k l ihk ihl =>
    obtain ⟨mid, hspansk, hspansl⟩ := hspans
    obtain ⟨hsubk, hsubl⟩ := forall_mem_append.mp hsub
    rw [ihl hk.2.2 hspansl hsubl, ihk hk.1.2 hspansk hsubk]
  | loop pos test body loc inner ih =>
    obtain ⟨rfl, -, hspans⟩ := hspans
    obtain ⟨htest, hsub⟩ := forall_mem_cons.mp hsub
    rw [ih hk.2 hspans hsub]
    exact h.upTo_step htest rfl hs

lemma Framed.alive (hk : k.Framed sel) (h : t.Nests es) (hspans : k.Spans lo hi)
    (hsub : ∀ e ∈ k.events, e ∈ es) (hx : t.Alive lo x) : t.Alive hi x := by
  obtain ⟨X, hX, -, -, hstop, hstart, -⟩ := h.exists_owner hx.mem
  have hup : X.UpTo hi :=
    (hk.upTo_iff h hspans hsub hX).mpr ⟨hstart.trans hx.earlier, hstop ▸ hx.upTo⟩
  exact ⟨hx.mem, hx.earlier.trans_le hspans.le, hstop ▸ hup.2⟩

/-- Behind whole scopes nothing else is alive. -/
theorem Enclosed.alive_iff (he : k.Enclosed) (hk : k.Framed sel) (h : t.Nests es)
    (hspans : k.Spans lo hi) (hsub : ∀ e ∈ k.events, e ∈ es) : t.Alive hi x ↔ t.Alive lo x := by
  refine ⟨fun hx => ?_, hk.alive h hspans hsub⟩
  induction k generalizing sel lo hi with
  | done =>
    obtain rfl : lo = hi := hspans
    exact hx
  | scope start stop node kind body ih =>
    obtain ⟨rfl, rfl, hbody⟩ := hspans
    obtain ⟨henter, -, hexit⟩ := forall_events_scope hsub
    obtain ⟨S, hS, hstart, hstop⟩ := h.exits _ hexit rfl
    have hstart : S.start = start := hstart
    have hstop : S.stop = stop := hstop
    have hle := hbody.le
    have hlater := hx.upTo
    have hearlier := hx.earlier
    have hne : x.declaredAt ≠ start := h.declaredAt_ne henter nofun hx.mem
    have hne' : x.declaredAt ≠ stop := h.declaredAt_ne hexit nofun hx.mem
    refine ⟨hx.mem, ?_, by omega⟩
    -- A binding that is declared in the scope does not outlive it.
    by_contra hge
    have hin := h.innermost x hx.mem S hS (by omega) (by omega)
    omega
  | fork k l ihk ihl =>
    obtain ⟨mid, hspansk, hspansl⟩ := hspans
    obtain ⟨hsubk, hsubl⟩ := forall_mem_append.mp hsub
    exact ihk he.1 hk.1.2 hspansk hsubk (ihl he.2 hk.2.2 hspansl hsubl hx)
  | event e | noted pos k ih | seq k l ihk ihl | loop pos test body loc inner ih => exact he.elim

lemma Enclosed.level (he : k.Enclosed) (hk : k.Framed sel) (h : t.Nests es) (hspans : k.Spans lo hi)
    (hsub : ∀ e ∈ k.events, e ∈ es) : t.Level lo hi :=
  ⟨fun _ hS => hk.upTo_iff h hspans hsub hS, fun _ => he.alive_iff hk h hspans hsub⟩

/-- What is alive at the selection of an arm is alive at the header of the arm. -/
theorem Framed.exists_selection (hk : k.Framed sel) (h : t.Nests es) (hspans : k.Spans lo hi)
    (hsub : ∀ e ∈ k.events, e ∈ es)
    (hsel : ∀ s, sel = some s → ∃ d ∈ es, d.kind = .step ∧ d.selection? = some s ∧
      ∀ x, t.Alive d.pos x → t.Alive lo x) {e : Event} (he : e ∈ k.events) (hkind : e.kind = .step)
    {a : Arm} {s : Selection} (hn : e.node = .arm a (some s)) :
    ∃ d ∈ es, d.kind = .step ∧ d.selection? = some s ∧ ∀ x, t.Alive d.pos x → t.Alive e.pos x := by
  induction k generalizing sel lo hi with
  | done => cases he
  | event e' =>
    obtain ⟨rfl, rfl⟩ := hspans
    obtain rfl := mem_singleton.mp he
    exact hsel s (hk.2 a s hn)
  | scope start stop node kind body ih =>
    obtain ⟨rfl, rfl, hbody⟩ := hspans
    obtain ⟨henter, hsub, -⟩ := forall_events_scope hsub
    have hbodymem : e ∈ body.events := by
      rcases mem_cons.mp he with rfl | he
      · cases hkind
      · refine (mem_append.mp he).resolve_right fun he => ?_
        rw [mem_singleton.mp he] at hkind
        cases hkind
    refine ih hk hbody hsub (fun s hs => ?_) hbodymem
    obtain ⟨d, hd, hdk, hds, halive⟩ := hsel s hs
    exact ⟨d, hd, hdk, hds, fun x hx => (h.alive_enter henter rfl).mpr (halive x hx)⟩
  | noted pos k ih => exact ih hk.1 hspans hsub hsel he
  | seq k l ihk ihl =>
    obtain ⟨mid, hspansk, hspansl⟩ := hspans
    obtain ⟨hsubk, hsubl⟩ := forall_mem_append.mp hsub
    rcases mem_append.mp he with he | he
    · exact ihk hk.1 hspansk hsubk hsel he
    · refine ihl hk.2 hspansl hsubl (fun s hs => ?_) he
      rcases Option.or_eq_some_iff.mp hs with hs | ⟨-, hs⟩
      · -- The first part is the selection itself.
        cases k with
        | event d =>
          obtain ⟨rfl, rfl⟩ := hspansk
          have hd := hsubk d mem_cons_self
          exact ⟨d, hd, hk.1.1, hs, fun x hx => (h.alive_step hd hk.1.1).mpr (.inl hx)⟩
        | _ => cases hs
      · obtain ⟨d, hd, hdk, hds, halive⟩ := hsel s hs
        exact ⟨d, hd, hdk, hds, fun x hx => hk.1.alive h hspansk hsubk (halive x hx)⟩
  | fork k l ihk ihl =>
    obtain ⟨mid, hspansk, hspansl⟩ := hspans
    obtain ⟨hsubk, hsubl⟩ := forall_mem_append.mp hsub
    rcases mem_append.mp he with he | he
    · exact ihk hk.1.2 hspansk hsubk hsel he
    · refine ihl hk.2.2 hspansl hsubl (fun s hs => ?_) he
      obtain ⟨d, hd, hdk, hds, halive⟩ := hsel s hs
      exact ⟨d, hd, hdk, hds, fun x hx => hk.1.2.alive h hspansk hsubk (halive x hx)⟩
  | loop pos test body loc inner ih =>
    obtain ⟨rfl, -, hspans⟩ := hspans
    obtain ⟨htest, hsub⟩ := forall_mem_cons.mp hsub
    rcases mem_cons.mp he with rfl | he
    · cases hn
    · refine ih hk.2 hspans hsub (fun s hs => ?_) he
      obtain ⟨d, hd, hdk, hds, halive⟩ := hsel s hs
      exact ⟨d, hd, hdk, hds, fun x hx => (h.alive_step htest rfl).mpr (.inl (halive x hx))⟩

end Skeleton

end Ownership
