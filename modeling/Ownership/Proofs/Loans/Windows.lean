import Mathlib.Order.MinMax
import Ownership.Proofs.Loans.Change
import Ownership.Proofs.StableSort

/-!
# What windows say

The window of a holder reaches to the last use of its value before the next definition in the text,
or to the end of the first loop that carries the value around. The window of a loan is made of those
of its holders.
-/

namespace Ownership

open List

/-! ### Positions in order -/

lemma pairwise_positionsOf (index : Nat) (entries : List (Nat × Int)) :
    (positionsOf index entries).Pairwise (· ≤ ·) := by
  refine (pairwise_stableSort ?_ ?_ _).imp fun h => of_decide_eq_true h
  · intro a b c
    simp only [decide_eq_true_eq]
    exact le_trans
  · intro a b
    simp only [decide_eq_true_eq]
    exact le_total a b

lemma le_getLast_of_pairwise {l : List Int} (h : l.Pairwise (· ≤ ·)) {a b : Int}
    (hb : l.getLast? = some b) (ha : a ∈ l) : a ≤ b := by
  obtain ⟨l', rfl⟩ := getLast?_eq_some_iff.mp hb
  rcases mem_append.mp ha with ha | ha
  · exact (pairwise_append.mp h).2.2 a ha b (mem_singleton_self b)
  · rw [mem_singleton.mp ha]

/-! ### Windows of holders -/

namespace ScopeTree

variable {t : ScopeTree} {b : Binding} {since p : Int}

/-- The next definition is the first one after a position. -/
lemma nextDef?_all_iff {u : Int} : (t.nextDef? b since).all (u ≤ ·) = true ↔
    ∀ d ∈ t.defsOf b, since < d → u ≤ d := by
  have hsorted : (t.defsOf b).Pairwise (· ≤ ·) := pairwise_positionsOf _ _
  unfold nextDef?
  cases hf : (t.defsOf b).find? fun d => decide (since < d) with
  | none =>
    rw [find?_eq_none] at hf
    simp only [Option.all_none, true_iff]
    intro d hd hlt
    exact (hf d hd (decide_eq_true hlt)).elim
  | some d₀ =>
    obtain ⟨h₀, as, bs, heq, has⟩ := find?_eq_some_iff_append.mp hf
    rw [Option.all_some, decide_eq_true_eq]
    constructor
    · intro hu d hd hlt
      refine hu.trans ?_
      rw [heq] at hd hsorted
      rcases mem_append.mp hd with hd | hd
      · have := has d hd
        simp [hlt] at this
      · rcases mem_cons.mp hd with rfl | hd
        · exact le_rfl
        · exact (pairwise_cons.mp (pairwise_append.mp hsorted).2.1).1 d hd
    · intro h
      refine h d₀ ?_ (of_decide_eq_true h₀)
      rw [heq]
      exact mem_append_right _ mem_cons_self

/-- The last use is the last one up to the next definition. -/
lemma le_lastUse_iff : p ≤ t.lastUse b since ↔ p ≤ since ∨ ∃ u ∈ t.usesOf b, since < u ∧
    (∀ d ∈ t.defsOf b, since < d → u ≤ d) ∧ p ≤ u := by
  have hmem : ∀ u, u ∈ (t.usesOf b).filter (fun u =>
      decide (since < u) && (t.nextDef? b since).all (u ≤ ·)) ↔
      u ∈ t.usesOf b ∧ since < u ∧ ∀ d ∈ t.defsOf b, since < d → u ≤ d := by
    intro u
    rw [mem_filter, Bool.and_eq_true, decide_eq_true_eq, nextDef?_all_iff]
  have hsorted := (pairwise_positionsOf b.index t.uses).filter (fun u =>
    decide (since < u) && (t.nextDef? b since).all (u ≤ ·))
  unfold lastUse
  dsimp only
  cases hl : getLast? (filter _ (t.usesOf b)) with
  | none =>
    rw [getLast?_eq_none_iff] at hl
    simp only [hl, not_mem_nil, false_iff] at hmem
    rw [Option.getD_none]
    refine ⟨.inl, fun h => h.resolve_right ?_⟩
    rintro ⟨u, hu, hlt, hd, -⟩
    exact hmem u ⟨hu, hlt, hd⟩
  | some u₀ =>
    obtain ⟨hu₀, hlt₀, hd₀⟩ := (hmem u₀).mp (mem_of_getLast? hl)
    rw [Option.getD_some]
    refine ⟨fun h => .inr ⟨u₀, hu₀, hlt₀, hd₀, h⟩, ?_⟩
    rintro (h | ⟨u, hu, hlt, hd, h⟩)
    · exact h.trans hlt₀.le
    · exact h.trans (le_getLast_of_pairwise hsorted hl ((hmem u).mpr ⟨hu, hlt, hd⟩))

/-- Whether loops that start at different positions are nested or apart. -/
structure Nested (t : ScopeTree) : Prop where
  inside : ∀ l ∈ t.loops, ∀ m ∈ t.loops, l.start < m.start → m.start ≤ l.stop → m.stop ≤ l.stop
  distinct : ∀ l ∈ t.loops, ∀ m ∈ t.loops, l.start = m.start → l = m

/-- Whether a loop is the first one in the text that carries the value of a holder around. -/
def Carries (t : ScopeTree) (h : Holder) (m : LoopRange) : Prop :=
  m ∈ t.loops ∧ t.crosses h.binding h.since m = true ∧
    ∀ l ∈ t.loops, t.crosses h.binding h.since l = true → m.start ≤ l.start

/-- Whether the value of a holder is wanted, as the text goes, at a position or behind it: for a use
that no later definition precedes, or because a loop carries it around. -/
def Wants (t : ScopeTree) (h : Holder) (p : Int) : Prop :=
  p ≤ h.since ∨
  (∃ u ∈ t.usesOf h.binding, h.since < u ∧
    (∀ d ∈ t.defsOf h.binding, h.since < d → u ≤ d) ∧ p ≤ u) ∨
  ∃ m, t.Carries h m ∧ p ≤ m.stop

lemma foldl_outermost_ne_none {found : Option LoopRange} {ls : List LoopRange}
    (h : found ≠ none ∨ ls ≠ []) : ls.foldl outermost found ≠ none := by
  induction ls generalizing found with
  | nil => exact h.resolve_right (fun hn => hn rfl)
  | cons l ls ih =>
    refine ih (.inl ?_)
    cases found with
    | none => exact Option.some_ne_none _
    | some m =>
      simp only [outermost]
      split <;> exact Option.some_ne_none _

/-- The loop of a holder is the first one that carries its value around. -/
lemma loop_holderWindow_iff (ht : t.Nested) {m : LoopRange} :
    (t.holderWindow b since).2 = some m ↔ t.Carries ⟨b, since⟩ m := by
  constructor
  · intro h
    obtain ⟨hm, hcross, -, hmin⟩ := loop_holderWindow h
    exact ⟨hm, hcross, hmin⟩
  · rintro ⟨hm, hcross, hmin⟩
    cases hw : (t.holderWindow b since).2 with
    | some m' =>
      obtain ⟨hm', hcross', -, hmin'⟩ := loop_holderWindow hw
      have hstart := le_antisymm (hmin' m hm hcross) (hmin m' hm' hcross')
      rw [ht.distinct m' hm' m hm hstart]
    | none =>
      exfalso
      have hne : (t.loops.filter (t.crosses b since)).foldl outermost none ≠ none :=
        foldl_outermost_ne_none (.inr (ne_nil_of_mem (mem_filter.mpr ⟨hm, hcross⟩)))
      unfold holderWindow at hw
      dsimp only at hw
      split at hw
      · rename_i hnone
        exact hne hnone
      · cases hw

lemma le_holderWindow_iff (ht : t.Nested) :
    p ≤ (t.holderWindow b since).1 ↔ t.Wants ⟨b, since⟩ p := by
  have hstop : (t.holderWindow b since).1 = (t.holderWindow b since).2.elim (t.lastUse b since)
      fun m => max (t.lastUse b since) m.stop := by
    unfold holderWindow
    dsimp only
    split <;> rfl
  have hwants : t.Wants ⟨b, since⟩ p ↔
      p ≤ t.lastUse b since ∨ ∃ m, (t.holderWindow b since).2 = some m ∧ p ≤ m.stop := by
    simp only [Wants, le_lastUse_iff, loop_holderWindow_iff ht, or_assoc]
  rw [hwants, hstop]
  cases (t.holderWindow b since).2 with
  | none => simp
  | some m => simp only [Option.elim_some, Option.some.injEq, exists_eq_left', le_max_iff]

end ScopeTree

/-! ### Windows of loans -/

namespace Loan

variable {t : ScopeTree} {l : Loan} {b : Binding} {since p : Int}

/-- Whether a loan reaches a position, as the text goes: not before its start and the loops that
carry it around, and not behind the last position at which a holder wants it. -/
def Reaches (t : ScopeTree) (l : Loan) (p : Int) : Prop :=
  (l.start ≤ p ∨ ∃ h ∈ l.holders, ∃ m, t.Carries h m ∧ m.start ≤ p) ∧
    (p ≤ l.start ∨ ∃ h ∈ l.holders, t.Wants h p)

/-- Whether the window of a loan is exactly what its holders ask for. -/
structure Exact (t : ScopeTree) (l : Loan) : Prop where
  stop : ∀ p, p ≤ l.stop ↔ p ≤ l.start ∨ ∃ h ∈ l.holders, t.Wants h p
  loop : ∀ p, (∃ m ∈ l.loop, m.start ≤ p) ↔ ∃ h ∈ l.holders, ∃ m, t.Carries h m ∧ m.start ≤ p
  mem : ∀ m ∈ l.loop, m ∈ t.loops
  start_le : ∀ m ∈ l.loop, l.start ≤ m.stop
  since : ∀ h ∈ l.holders, l.activeAt h.since = true

lemma activeAt_iff_interval (hp : l.Proper) (hle : ∀ m ∈ l.loop, l.start ≤ m.stop) :
    l.activeAt p = true ↔ (l.start ≤ p ∨ ∃ m ∈ l.loop, m.start ≤ p) ∧ p ≤ l.stop := by
  rw [activeAt_iff]
  constructor
  · rintro (⟨h, h'⟩ | ⟨m, hm, h, h'⟩)
    · exact ⟨.inl h, h'⟩
    · exact ⟨.inr ⟨m, hm, h⟩, h'.trans (hp.loop_le_stop m hm)⟩
  · rintro ⟨h | ⟨m, hm, h⟩, h'⟩
    · exact .inl ⟨h, h'⟩
    · by_cases hstart : l.start ≤ p
      · exact .inl ⟨hstart, h'⟩
      · have := hle m hm
        exact .inr ⟨m, hm, h, by omega⟩

lemma Exact.activeAt_iff_reaches (h : l.Exact t) (hp : l.Proper) :
    l.activeAt p = true ↔ l.Reaches t p := by
  rw [activeAt_iff_interval hp h.start_le, h.loop, h.stop]
  exact .rfl

lemma exact_grant {id : Nat} {place : Place} {kind : LoanKind} {pos : Int} {span : Span} :
    Exact t ⟨id, place, kind, pos, span, pos, [], none⟩ where
  stop p := by simp
  loop p := by simp
  mem m hm := nomatch hm
  start_le m hm := nomatch hm
  since h hh := nomatch hh

lemma start_le_of_carries (ht : t.Nested) (h : l.Exact t) (hactive : l.activeAt since = true)
    {m : LoopRange} (hm : t.Carries ⟨b, since⟩ m) (hfirst : ∀ k ∈ l.loop, m.start < k.start) :
    l.start ≤ m.stop := by
  obtain ⟨hmem, hcross, -⟩ := hm
  obtain ⟨hstop, -⟩ := ScopeTree.since_le_stop_of_crosses hcross
  rcases activeAt_iff.mp hactive with ⟨hle, -⟩ | ⟨k, hk, hks, hke⟩
  · exact hle.trans hstop
  · -- The old loop starts inside the new one, so it ends inside it.
    have hin := ht.inside m hmem k (h.mem k hk) (hfirst k hk) (hks.trans hstop)
    exact (h.start_le k hk).trans hin

/-- A new holder widens the window just as far as it needs the loan. -/
lemma Exact.attach (ht : t.Nested) (hp : l.Proper) (h : l.Exact t)
    (hactive : l.activeAt since = true) (b : Binding) : (l.attach t b since).Exact t := by
  have hp' := hp.attach t b since
  rcases attach_cases t b since l with heq | ⟨hstop, hholders, hloop⟩
  · rw [heq]
    exact h
  have hwindow : ∀ {m}, (t.holderWindow b since).2 = some m ↔ t.Carries ⟨b, since⟩ m :=
    ScopeTree.loop_holderWindow_iff ht
  have hexists : ∀ {P : Holder → Prop}, (∃ h ∈ (l.attach t b since).holders, P h) ↔
      (∃ h ∈ l.holders, P h) ∨ P ⟨b, since⟩ := by
    intro P
    rw [hholders]
    simp [or_and_right, exists_or]
  have hstarts : ∀ p, (∃ m ∈ (l.attach t b since).loop, m.start ≤ p) ↔
      (∃ m ∈ l.loop, m.start ≤ p) ∨ ∃ m, t.Carries ⟨b, since⟩ m ∧ m.start ≤ p := by
    intro p
    simp only [hloop, ← hwindow]
    cases (t.holderWindow b since).2 with
    | none => simp
    | some m =>
      cases hl : l.loop with
      | none => simp [ScopeTree.outermost]
      | some k =>
        simp only [ScopeTree.outermost]
        split <;> simp <;> omega
  have hle : ∀ m ∈ (l.attach t b since).loop, (l.attach t b since).start ≤ m.stop := by
    intro m hm
    rw [start_attach]
    rcases loop_attach hm with hold | ⟨hw, hfirst⟩
    · exact h.start_le m hold
    · exact start_le_of_carries ht h hactive (hwindow.mp hw) hfirst
  -- The window only grows.
  have hmono : ∀ {p}, l.activeAt p = true → (l.attach t b since).activeAt p = true := by
    intro p hlive
    obtain ⟨hlow, hup⟩ := (activeAt_iff_interval hp h.start_le).mp hlive
    refine (activeAt_iff_interval hp' hle).mpr ⟨?_, hup.trans le_stop_attach⟩
    rw [start_attach, hstarts]
    exact hlow.imp_right .inl
  constructor
  · intro p
    rw [hstop, le_max_iff, h.stop, ScopeTree.le_holderWindow_iff ht, hexists, start_attach,
      or_assoc]
  · intro p
    rw [hstarts, h.loop, hexists]
  · intro m hm
    rcases loop_attach hm with hold | ⟨hw, -⟩
    · exact h.mem m hold
    · exact (hwindow.mp hw).1
  · exact hle
  · intro k hk
    rw [hholders, mem_append, mem_singleton] at hk
    rcases hk with hk | rfl
    · exact hmono (h.since k hk)
    · exact hmono hactive

lemma exact_change (ht : t.Nested) {pos : Int} {ls ls' : List Loan} (hb : Booked ls)
    (hc : Change t pos ls ls') (h : ∀ l ∈ ls, l.Exact t) : ∀ l ∈ ls', l.Exact t := by
  intro l hl
  cases hc with
  | grant place kind span hfree =>
    rcases mem_append.mp hl with hl | hl
    · exact h l hl
    · rw [mem_singleton.mp hl]
      exact exact_grant
  | attach held b hlive =>
    obtain ⟨k, hk, rfl⟩ := mem_map.mp hl
    split
    · rename_i hheld
      exact (h k hk).attach ht (hb.proper k hk) (hlive k hk hheld) b
    · exact h k hk

end Loan

end Ownership
