import Mathlib.Data.Int.Order.Basic
import Mathlib.Data.List.Pairwise
import Mathlib.Order.Lattice
import Ownership.Proofs.Checker.Session

/-!
# How loans change

The list of loans changes in two ways only: a borrow that no live loan excludes is granted, and
live loans get a new holder. Both happen at a position, and everything that is said about loans
later on is an invariant of these two changes.
-/

namespace Ownership

open List

/-! ### Windows of holders -/

namespace ScopeTree

variable {t : ScopeTree} {b : Binding} {since : Int}

/-- The loop that starts first is one of those seen, and no other starts before it. -/
lemma foldl_outermost {found : Option LoopRange} {ls : List LoopRange} {m : LoopRange}
    (h : ls.foldl outermost found = some m) :
    (m ∈ found ∨ m ∈ ls) ∧ (∀ l ∈ ls, m.start ≤ l.start) ∧ ∀ l ∈ found, m.start ≤ l.start := by
  induction ls generalizing found with
  | nil =>
    refine ⟨.inl h, (fun l hl => nomatch hl), fun l hl => ?_⟩
    rw [Option.mem_unique h hl]
  | cons k ls ih =>
    obtain ⟨hmem, hls, hfound⟩ := ih h
    cases found with
    | none =>
      have hk : m.start ≤ k.start := hfound k rfl
      refine ⟨.inr ?_, forall_mem_cons.mpr ⟨hk, hls⟩, fun l hl => nomatch hl⟩
      rcases hmem with hmem | hmem
      · rw [Option.some.inj hmem]
        exact mem_cons_self
      · exact mem_cons_of_mem _ hmem
    | some f =>
      simp only [outermost] at hmem hfound
      split at hmem
      · rename_i hlt
        rw [if_pos hlt] at hfound
        have hk : m.start ≤ k.start := hfound k rfl
        refine ⟨.inr ?_, forall_mem_cons.mpr ⟨hk, hls⟩, ?_⟩
        · rcases hmem with hmem | hmem
          · rw [Option.some.inj hmem]
            exact mem_cons_self
          · exact mem_cons_of_mem _ hmem
        · intro l hl
          cases hl
          omega
      · rename_i hlt
        rw [if_neg hlt] at hfound
        have hf : m.start ≤ f.start := hfound f rfl
        refine ⟨hmem.imp id (mem_cons_of_mem _), forall_mem_cons.mpr ⟨by omega, hls⟩, ?_⟩
        intro l hl
        cases hl
        exact hf

/-- The loop of a window is one that the holder crosses; it starts first among them, and the window
reaches to its end. -/
lemma loop_holderWindow {m : LoopRange} (h : (t.holderWindow b since).2 = some m) :
    m ∈ t.loops ∧ t.crosses b since m = true ∧ m.stop ≤ (t.holderWindow b since).1 ∧
      ∀ l ∈ t.loops, t.crosses b since l = true → m.start ≤ l.start := by
  unfold holderWindow at h ⊢
  dsimp only at h ⊢
  cases hf : (t.loops.filter (t.crosses b since)).foldl outermost none with
  | none =>
    rw [hf] at h
    cases h
  | some m' =>
    rw [hf] at h
    cases h
    obtain ⟨hmem, hmin, -⟩ := foldl_outermost hf
    have hm := hmem.resolve_left (fun h => nomatch h)
    rw [mem_filter] at hm
    refine ⟨hm.1, hm.2, le_max_right _ _, fun l hl hc => hmin l ?_⟩
    exact mem_filter.mpr ⟨hl, hc⟩

lemma since_le_stop_of_crosses {l : LoopRange} (h : t.crosses b since l = true) :
    since ≤ l.stop ∧ (since < l.start ∨ l.contains since = true) := by
  unfold crosses at h
  dsimp only at h
  split at h
  · cases h
  · rename_i hne
    split at h
    · rename_i hlt
      rw [Bool.or_eq_true, not_or] at hne
      obtain ⟨u, hu⟩ := exists_mem_of_ne_nil _ (fun he => hne.2 (isEmpty_iff.mpr he))
      have hin := (mem_filter.mp hu).2
      simp only [LoopRange.contains, Bool.and_eq_true, decide_eq_true_eq] at hin
      exact ⟨by omega, .inl hlt⟩
    · split at h
      · rename_i hin
        refine ⟨?_, .inr hin⟩
        simp only [LoopRange.contains, Bool.and_eq_true, decide_eq_true_eq] at hin
        exact hin.2
      · cases h

end ScopeTree

/-! ### Single loans -/

namespace Loan

variable {t : ScopeTree} {b : Binding} {since p q : Int} {l : Loan} {place : Place}
  {kind : LoanKind}

@[simp] lemma id_attach : (l.attach t b since).id = l.id := by
  unfold attach
  split <;> rfl

@[simp] lemma kind_attach : (l.attach t b since).kind = l.kind := by
  unfold attach
  split <;> rfl

@[simp] lemma start_attach : (l.attach t b since).start = l.start := by
  unfold attach
  split <;> rfl

/-- Whether the window of a loan is not empty and contains the end of its loop. -/
structure Proper (l : Loan) : Prop where
  start_le_stop : l.start ≤ l.stop
  loop_le_stop : ∀ m ∈ l.loop, m.stop ≤ l.stop

lemma activeAt_iff : l.activeAt p = true ↔
    (l.start ≤ p ∧ p ≤ l.stop) ∨ ∃ m ∈ l.loop, m.start ≤ p ∧ p ≤ m.stop := by
  simp [activeAt, LoopRange.contains, Option.any_eq_true]

lemma Proper.activeAt_start (h : l.Proper) : l.activeAt l.start = true :=
  activeAt_iff.mpr (.inl ⟨le_refl _, h.start_le_stop⟩)

lemma Proper.le_stop (h : l.Proper) (hp : l.activeAt p = true) : p ≤ l.stop := by
  rcases activeAt_iff.mp hp with ⟨-, hle⟩ | ⟨m, hm, -, hle⟩
  · exact hle
  · exact hle.trans (h.loop_le_stop m hm)

lemma Proper.activeAt_of_le (h : l.Proper) (hp : l.activeAt p = true) (hq : l.start ≤ q)
    (hqp : q ≤ p) : l.activeAt q = true :=
  activeAt_iff.mpr (.inl ⟨hq, hqp.trans (h.le_stop hp)⟩)

lemma attach_cases (t : ScopeTree) (b : Binding) (since : Int) (l : Loan) :
    l.attach t b since = l ∨
      ((l.attach t b since).stop = max l.stop (t.holderWindow b since).1 ∧
        (l.attach t b since).holders = l.holders ++ [⟨b, since⟩] ∧
        (l.attach t b since).loop = match (t.holderWindow b since).2 with
          | none => l.loop
          | some m => ScopeTree.outermost l.loop m) := by
  unfold attach
  split
  · exact .inl rfl
  · exact .inr ⟨rfl, rfl, rfl⟩

/-- A holder gives its loop to a loan only if it starts before the one there is. -/
lemma loop_attach {m : LoopRange} (hm : m ∈ (l.attach t b since).loop) :
    m ∈ l.loop ∨ ((t.holderWindow b since).2 = some m ∧ ∀ k ∈ l.loop, m.start < k.start) := by
  rcases attach_cases t b since l with he | ⟨-, -, hloop⟩
  · exact .inl (he ▸ hm)
  · rw [hloop] at hm
    cases hw : (t.holderWindow b since).2 with
    | none =>
      rw [hw] at hm
      exact .inl hm
    | some m' =>
      rw [hw] at hm
      simp only at hm
      cases hl : l.loop with
      | none =>
        rw [hl] at hm
        cases hm
        exact .inr ⟨rfl, fun k hk => nomatch hk⟩
      | some k =>
        rw [hl] at hm
        simp only [ScopeTree.outermost] at hm
        split at hm
        · rename_i hlt
          cases hm
          refine .inr ⟨rfl, fun k' hk' => ?_⟩
          rwa [← Option.some.inj hk']
        · exact .inl hm

lemma le_stop_attach : l.stop ≤ (l.attach t b since).stop := by
  rcases attach_cases t b since l with he | ⟨hstop, -, -⟩
  · rw [he]
  · rw [hstop]
    exact le_max_left _ _

lemma Proper.attach (h : l.Proper) (t : ScopeTree) (b : Binding) (since : Int) :
    (l.attach t b since).Proper where
  start_le_stop := by
    rw [start_attach]
    exact h.start_le_stop.trans le_stop_attach
  loop_le_stop m hm := by
    rcases loop_attach hm with hold | ⟨hw, -⟩
    · exact (h.loop_le_stop m hold).trans le_stop_attach
    · rcases attach_cases t b since l with he | ⟨hstop, -, -⟩
      · rw [he] at hm ⊢
        exact h.loop_le_stop m hm
      · rw [hstop]
        exact (ScopeTree.loop_holderWindow hw).2.2.1.trans (le_max_right _ _)

/-- A loan stays live where it gets a new holder. -/
lemma activeAt_attach (h : l.activeAt since = true) (t : ScopeTree) (b : Binding) :
    (l.attach t b since).activeAt since = true := by
  rcases activeAt_iff.mp h with ⟨hs, hle⟩ | ⟨m, hm, hs, hle⟩
  · exact activeAt_iff.mpr (.inl ⟨by rwa [start_attach], hle.trans le_stop_attach⟩)
  · rcases attach_cases t b since l with he | ⟨-, -, hloop⟩
    · rw [he]
      exact h
    · cases hl : (l.attach t b since).loop with
      | none =>
        rw [hloop, hm] at hl
        cases hw : (t.holderWindow b since).2 with
        | none =>
          rw [hw] at hl
          cases hl
        | some m' =>
          rw [hw] at hl
          simp only [ScopeTree.outermost] at hl
          split at hl <;> cases hl
      | some m' =>
        refine activeAt_iff.mpr (.inr ⟨m', hl, ?_⟩)
        rcases loop_attach hl with hold | ⟨hw, hlt⟩
        · rw [hm] at hold
          cases hold
          exact ⟨hs, hle⟩
        · -- A loop that starts earlier and is crossed from here contains this position.
          have hstart := hlt m hm
          obtain ⟨-, hcross, -, -⟩ := ScopeTree.loop_holderWindow hw
          obtain ⟨hstop, -⟩ := ScopeTree.since_le_stop_of_crosses hcross
          exact ⟨by omega, hstop⟩

/-! ### Lists of loans -/

/-- Whether a loan excludes a request while it is live. -/
def Excludes (l : Loan) (place : Place) (kind : LoanKind) : Prop :=
  l.place.overlaps place = true ∧ (kind = .exclusive ∨ l.kind = .exclusive)

/-- Whether a loan answers a request that is made at a position. -/
def Answers (l : Loan) (place : Place) (kind : LoanKind) (pos : Int) : Prop :=
  l.place = place ∧ l.kind = kind ∧ l.start = pos

@[simp] lemma excludes_attach :
    (l.attach t b since).Excludes place kind ↔ l.Excludes place kind := by
  simp [Excludes]

@[simp] lemma answers_attach {pos : Int} :
    (l.attach t b since).Answers place kind pos ↔ l.Answers place kind pos := by
  simp [Answers]

/-- Whether loans are numbered in their order and proper, and those that start together do not
exclude each other. -/
structure Booked (ls : List Loan) : Prop where
  ids : ∀ {i : Nat} {l : Loan}, ls[i]? = some l → l.id = i
  proper : ∀ l ∈ ls, l.Proper
  apart : ls.Pairwise fun l k : Loan => l.start = k.start → ¬l.Excludes k.place k.kind

/-- One change of loans at a position. -/
inductive Change (t : ScopeTree) (pos : Int) (ls : List Loan) : List Loan → Prop
  | grant (place : Place) (kind : LoanKind) (span : Span)
      (hfree : ∀ l ∈ ls, l.Excludes place kind → l.activeAt pos = false) :
      Change t pos ls (ls ++ [⟨ls.length, place, kind, pos, span, pos, [], none⟩])
  | attach (held : List Nat) (b : Binding)
      (hlive : ∀ l ∈ ls, l.id ∈ held → l.activeAt pos = true) :
      Change t pos ls (ls.map fun l => if l.id ∈ held then l.attach t b pos else l)

variable {ls ls' : List Loan} {pos : Int}

lemma Booked.nil : Booked [] := ⟨by simp, by simp, .nil⟩

lemma Booked.eq_of_id {k : Loan} (h : Booked ls) (hl : l ∈ ls) (hk : k ∈ ls) (hid : l.id = k.id) :
    l = k := by
  obtain ⟨i, hi⟩ := mem_iff_getElem?.mp hl
  obtain ⟨j, hj⟩ := mem_iff_getElem?.mp hk
  have hij : i = j := by rw [← h.ids hi, ← h.ids hj, hid]
  rw [hij, hj] at hi
  exact (Option.some.inj hi).symm

/-- Changes keep loans numbered and proper. -/
lemma Booked.change (h : Booked ls) (hc : Change t pos ls ls') : Booked ls' := by
  cases hc with
  | grant place kind span hfree =>
    refine ⟨fun {i l} hi => ?_, fun l hl => ?_, ?_⟩
    · rw [getElem?_append] at hi
      split at hi
      · exact h.ids hi
      · rename_i hlt
        rw [getElem?_singleton] at hi
        split at hi
        · rw [← Option.some.inj hi]
          dsimp only
          omega
        · cases hi
    · rcases mem_append.mp hl with hl | hl
      · exact h.proper l hl
      · rw [mem_singleton.mp hl]
        exact ⟨le_refl _, fun m hm => nomatch hm⟩
    · rw [pairwise_append]
      refine ⟨h.apart, pairwise_singleton _ _, fun l hl k hk => ?_⟩
      rw [mem_singleton.mp hk]
      intro hstart hex
      have hactive := (h.proper l hl).activeAt_start
      rw [hstart, hfree l hl hex] at hactive
      cases hactive
  | attach held b hlive =>
    refine ⟨fun {i l} hi => ?_, fun l hl => ?_, ?_⟩
    · rw [getElem?_map] at hi
      obtain ⟨k, hk, rfl⟩ := Option.map_eq_some_iff.mp hi
      split
      · rw [id_attach]
        exact h.ids hk
      · exact h.ids hk
    · obtain ⟨k, hk, rfl⟩ := mem_map.mp hl
      split
      · exact (h.proper k hk).attach t b pos
      · exact h.proper k hk
    · rw [pairwise_map]
      refine h.apart.imp fun {l k} hlk => ?_
      split <;> split <;> simpa using hlk

end Loan

end Ownership
