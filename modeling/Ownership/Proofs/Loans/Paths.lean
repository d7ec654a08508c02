import Ownership.Proofs.Loans.Settled
import Ownership.Proofs.Loans.Windows
import Ownership.Proofs.Scope.Loops

/-!
# Loans on paths

A reference that is read on some path keeps its loan alive on that path if the loan reaches, in the
order of the text, the read and both ends of every loop that the path goes round. Otherwise it does
not: of several loops that carry a value around only the first one counts, and a definition that
comes first in the text hides a use behind it even on paths that avoid it.
-/

namespace Ownership

open List

/-! ### Positions between the ends of a path -/

/-- Whether events come to the end of a loop and go on with its test. -/
def GoesRound (m : LoopRange) (seg : List Event) : Prop :=
  ∃ before e e' after, seg = before ++ e :: e' :: after ∧ e.pos = m.stop ∧ e'.pos = m.start

lemma GoesRound.cons {m : LoopRange} {seg : List Event} (h : GoesRound m seg) (e : Event) :
    GoesRound m (e :: seg) := by
  obtain ⟨before, a, a', after, rfl, hpos⟩ := h
  exact ⟨e :: before, a, a', after, rfl, hpos⟩

lemma GoesRound.mem {m : LoopRange} {seg : List Event} (h : GoesRound m seg) :
    (∃ e ∈ seg, e.pos = m.stop) ∧ ∃ e ∈ seg, e.pos = m.start := by
  obtain ⟨before, a, a', after, rfl, hstop, hstart⟩ := h
  exact ⟨⟨a, by simp, hstop⟩, ⟨a', by simp, hstart⟩⟩

variable {ls : List LoopRange} {seg : List Event}

lemma first_le_of_isChain (h : seg.IsChain (Skeleton.Steps ls)) {e : Event} (he : e ∈ seg) :
    (∃ a ∈ seg.head?, a.pos ≤ e.pos) ∨ ∃ m ∈ ls, GoesRound m seg ∧ m.start ≤ e.pos := by
  induction seg with
  | nil => cases he
  | cons a seg ih =>
    rcases mem_cons.mp he with rfl | he
    · exact .inl ⟨e, rfl, le_rfl⟩
    · obtain ⟨hstep, htail⟩ := isChain_cons.mp h
      rcases ih htail he with ⟨a', ha', hle⟩ | ⟨m, hm, hround, hle⟩
      · rcases hstep a' ha' with hlt | ⟨m, hm, hstop, hstart⟩
        · exact .inl ⟨a, rfl, hlt.le.trans hle⟩
        · obtain ⟨seg', rfl⟩ := head?_eq_some_iff.mp ha'
          exact .inr ⟨m, hm, ⟨[], a, a', seg', rfl, hstop, hstart⟩, hstart ▸ hle⟩
      · exact .inr ⟨m, hm, hround.cons a, hle⟩

/-- What a path passes lies before its end, or in a loop that it goes round. -/
lemma le_last_of_isChain (h : seg.IsChain (Skeleton.Steps ls)) {e : Event} (he : e ∈ seg) :
    (∃ a ∈ seg.getLast?, e.pos ≤ a.pos) ∨ ∃ m ∈ ls, GoesRound m seg ∧ e.pos ≤ m.stop := by
  induction seg generalizing e with
  | nil => cases he
  | cons a seg ih =>
    obtain ⟨hstep, htail⟩ := isChain_cons.mp h
    cases seg with
    | nil =>
      rw [mem_singleton.mp he]
      exact .inl ⟨a, rfl, le_rfl⟩
    | cons a' seg =>
      have hrest : ∀ {e}, e ∈ a' :: seg → (∃ b ∈ (a :: a' :: seg).getLast?, e.pos ≤ b.pos) ∨
          ∃ m ∈ ls, GoesRound m (a :: a' :: seg) ∧ e.pos ≤ m.stop := by
        intro e he
        rw [getLast?_cons_cons]
        exact (ih htail he).imp_right fun ⟨m, hm, hround, hle⟩ => ⟨m, hm, hround.cons a, hle⟩
      rcases mem_cons.mp he with rfl | he
      · rcases hstep a' rfl with hlt | ⟨m, hm, hstop, hstart⟩
        · refine (hrest mem_cons_self).imp ?_ ?_
          · exact fun ⟨b, hb, hle⟩ => ⟨b, hb, hlt.le.trans hle⟩
          · exact fun ⟨m, hm, hround, hle⟩ => ⟨m, hm, hround, hlt.le.trans hle⟩
        · exact .inr ⟨m, hm, ⟨[], e, a', seg, rfl, hstop, hstart⟩, hstop.le⟩
      · exact hrest he

namespace Context

variable {program : Program} {f : Function} {options : Options} {c : Context} {s : Session}

/-! ### Functions -/

lemma nested_of_build (h : build program f options = .ok c) : c.tree.Nested := by
  obtain ⟨hi, hspans⟩ := f.spans_skeleton
  have hloops := ScopeTree.loops_ofFunction (tree_of_build h)
  have hle : ∀ m ∈ c.tree.loops, m.start ≤ m.stop := by
    rw [hloops]
    exact fun m hm => (hspans.mem_loops hm).2.1
  have hcases : ∀ l ∈ c.tree.loops, ∀ m ∈ c.tree.loops, l = m ∨ l.stop < m.start ∨
    m.stop < l.start ∨
      (l.start < m.start ∧ m.stop ≤ l.stop) ∨ (m.start < l.start ∧ l.stop ≤ m.stop) := by
    rw [hloops]
    exact fun l hl m hm => hspans.loops_cases hl hm
  constructor
  · intro l hl m hm hstart hin
    have := hle m hm
    rcases hcases l hl m hm with rfl | h | h | h | h <;> omega
  · intro l hl m hm hstart
    have := hle l hl
    have := hle m hm
    rcases hcases l hl m hm with h | h | h | h | h
    · exact h
    all_goals omega

lemma exact_of_run (hbuild : build program f options = .ok c) (hrun : c.run = .ok s) :
    ∀ l ∈ s.loans, l.Proper ∧ l.Exact c.tree := by
  obtain ⟨hc, hr, -⟩ := build_fields hbuild
  obtain ⟨s₀, s₁, h₀, h₁, hexit⟩ := run_cases hrun
  have hnone := (initial_fields h₀).1
  have htrail := Skeleton.walk_trail hr False c.function.skeleton (fun h => h.elim) h₁
  obtain ⟨hb, hexact⟩ :=
    htrail.keeps (Q := fun _ => True) (P := fun ls => ∀ l ∈ ls, l.Exact c.tree) hc
    (fun _ hb hch h => Loan.exact_change (nested_of_build hbuild) hb hch h) (fun _ _ => trivial)
    (hnone ▸ .nil) (hnone ▸ fun l hl => nomatch hl)
  obtain ⟨scope, -, hexit⟩ := bind_eq_ok.mp hexit
  rw [(idle_exitScope hexit).loans]
  exact fun l hl => ⟨hb.proper l hl, hexact l hl⟩

/-- Whether events of a path lead from the position where a holder got its value to a position `u`
where the holder is read, with no definition of it in between. -/
structure LeadsToRead (c : Context) (h : Holder) (seg : List Event) (u : Int) : Prop where
  path : ∃ before after, c.function.Path (before ++ seg ++ after)
  first : seg.head?.map Event.pos = some h.since
  last : seg.getLast?.map Event.pos = some u
  reads : u ∈ c.tree.usesOf h.binding
  keeps : ∀ e ∈ seg.tail.dropLast, e.pos ∉ c.tree.defsOf h.binding

/-- On a path from where a holder of a loan got its value to where it is read, the loan is live
everywhere exactly if it reaches, in the order of the text, the read and both ends of every loop
that the path goes round. -/
theorem live_on_path_iff_reaches {program : Program} {f : Function} {options : Options}
    {c : Context} {s : Session} (hbuild : build program f options = .ok c) (hrun : c.run = .ok s)
    {A : Loan} (hA : A ∈ s.loans) {h : Holder} (hh : h ∈ A.holders) {seg : List Event} {u : Int}
    (hseg : c.LeadsToRead h seg u) :
    (∀ e ∈ seg, A.activeAt e.pos = true) ↔ A.Reaches c.tree u ∧
      ∀ m ∈ c.tree.loops, GoesRound m seg → A.Reaches c.tree m.start ∧ A.Reaches c.tree m.stop := by
  obtain ⟨hproper, hexact⟩ := exact_of_run hbuild hrun A hA
  have hiff : ∀ {p}, A.activeAt p = true ↔ A.Reaches c.tree p := hexact.activeAt_iff_reaches hproper
  obtain ⟨a, ha, hsince⟩ := Option.map_eq_some_iff.mp hseg.first
  obtain ⟨z, hz, hu⟩ := Option.map_eq_some_iff.mp hseg.last
  constructor
  · intro hlive
    refine ⟨?_, fun m _ hround => ?_⟩
    · rw [← hu]
      exact hiff.mp (hlive z (mem_of_mem_getLast? hz))
    · obtain ⟨⟨e, he, hstop⟩, e', he', hstart⟩ := hround.mem
      rw [← hstop, ← hstart]
      exact ⟨hiff.mp (hlive e' he'), hiff.mp (hlive e he)⟩
  · rintro ⟨hread, hloops⟩ e he
    obtain ⟨before, after, r, hπ⟩ := hseg.path
    obtain ⟨hi, hspans⟩ := c.function.spans_skeleton
    have hloops_eq : c.tree.loops = c.function.skeleton.loops := by
      rw [ScopeTree.loops_ofFunction (tree_of_build hbuild), (build_fields hbuild).2.2]
    have hchain := hspans.isChain_path hπ
    rw [← hloops_eq] at hchain
    have hchain := (isChain_append.mp (isChain_append.mp hchain).1).2.1
    -- The window has no gap, so it is enough to bound the position from both sides.
    rw [hiff]
    constructor
    · have hlow : A.Reaches c.tree h.since := hiff.mp (hexact.since h hh)
      have hup : ∀ {p}, A.Reaches c.tree p → p ≤ e.pos → A.start ≤ e.pos ∨
          ∃ h ∈ A.holders, ∃ m, c.tree.Carries h m ∧ m.start ≤ e.pos := by
        intro p hp hle
        refine hp.1.imp (·.trans hle) ?_
        exact fun ⟨h, hh, m, hm, hstart⟩ => ⟨h, hh, m, hm, hstart.trans hle⟩
      rcases first_le_of_isChain hchain he with ⟨a', ha', hle⟩ | ⟨m, hm, hround, hle⟩
      · obtain rfl := Option.mem_unique ha ha'
        exact hup hlow (hsince ▸ hle)
      · exact hup (hloops m hm hround).1 hle
    · have hdown : ∀ {p}, A.Reaches c.tree p → e.pos ≤ p → e.pos ≤ A.start ∨
          ∃ h ∈ A.holders, c.tree.Wants h e.pos := by
        intro p hp hle
        rw [← hexact.stop]
        exact hle.trans ((hexact.stop p).mpr hp.2)
      rcases le_last_of_isChain hchain he with ⟨z', hz', hle⟩ | ⟨m, hm, hround, hle⟩
      · obtain rfl := Option.mem_unique hz hz'
        exact hdown hread (hu ▸ hle)
      · exact hdown (hloops m hm hround).2 hle

end Context

/-! ### Two loops that read one reference -/

def Block.reading : Block := .mk [.evaluate (.var "r" .unknown) .unknown] .unknown

/-- Reads a reference and then something else. -/
def Block.readingFirst : Block :=
  .mk [.evaluate (.var "r" .unknown) .unknown, .evaluate (.var "c" .unknown) .unknown] .unknown

/-- Borrows a text and reads the reference in two loops, one after the other. -/
def Function.reread : Function where
  name := "reread"
  params := [⟨"c", some ⟨2⟩, false, .unknown⟩, ⟨"x", some ⟨1⟩, false, .unknown⟩]
  body := .mk [.declare "r" none (.borrow (.var "x" .unknown) false .unknown) false .unknown,
    .loop (.var "c" .unknown) .reading .unknown,
    .loop (.var "c" .unknown) .readingFirst .unknown] .unknown

lemma Block.path_reading : ∃ ρ ρ', (Block.reading.skeleton .loopBody 5).Path (ρ ++ ρ') false ∧
    ρ.map Event.pos = [5, 6] ∧ ρ'.map Event.pos = [7] :=
  ⟨[_, _], [_], ⟨[_], .inr ⟨[_], [], ⟨rfl, rfl⟩, ⟨rfl, rfl⟩, rfl⟩, rfl⟩, rfl, rfl⟩

lemma Block.path_readingFirst : ∃ ρ ρ',
    (Block.readingFirst.skeleton .loopBody 9).Path (ρ ++ ρ') false ∧
      ρ.map Event.pos = [9, 10] ∧ ρ'.map Event.pos = [11, 12] :=
  ⟨[_, _], [_, _], ⟨[_, _], .inr ⟨[_], [_], ⟨rfl, rfl⟩,
    .inr ⟨[_], [], ⟨rfl, rfl⟩, ⟨rfl, rfl⟩, rfl⟩, rfl⟩, rfl⟩, rfl, rfl⟩

def Event.borrowing : Event :=
  .step 3 (.stmt (.declare "r" none (.borrow (.var "x" .unknown) false .unknown) false .unknown))

def Event.testing (pos : Int) (body : Block) : Event := .test pos (.var "c" .unknown) body .unknown

lemma Function.path_reread_first : ∃ seg after, Function.reread.Path ([] ++ seg ++ after) ∧
    seg.map Event.pos = [3, 4, 5, 6, 7, 4, 5, 6] := by
  obtain ⟨ρ, ρ', hround, hρ, hρ'⟩ := Block.path_reading
  have hlaps : Laps (.testing 4 .reading) (Block.reading.skeleton .loopBody 5).Path _ false :=
    .again hround (.again hround .exit)
  have hpath : Function.reread.Path ([.borrowing] ++ (_ ++ ([.testing 8 .readingFirst] ++ []))) :=
    ⟨false, .inr ⟨_, _, ⟨rfl, rfl⟩, .inr ⟨_, _, hlaps, .inr ⟨_, _, .exit, ⟨rfl, rfl⟩, rfl⟩,
      rfl⟩, rfl⟩⟩
  refine ⟨.borrowing :: .testing 4 .reading :: (ρ ++ ρ' ++ .testing 4 .reading :: ρ),
    ρ' ++ [.testing 4 .reading, .testing 8 .readingFirst], by simpa using hpath, ?_⟩
  simp only [map_cons, map_append, hρ, hρ']
  rfl

lemma Function.path_reread_second : ∃ seg after, Function.reread.Path ([] ++ seg ++ after) ∧
    seg.map Event.pos = [3, 4, 8, 9, 10, 11, 12, 8, 9, 10] := by
  obtain ⟨ρ, ρ', hround, hρ, hρ'⟩ := Block.path_readingFirst
  have hlaps : Laps (.testing 8 .readingFirst)
      (Block.readingFirst.skeleton .loopBody 9).Path _ false := .again hround (.again hround .exit)
  have hpath : Function.reread.Path ([.borrowing] ++ ([.testing 4 .reading] ++ (_ ++ []))) :=
    ⟨false, .inr ⟨_, _, ⟨rfl, rfl⟩, .inr ⟨_, _, .exit, .inr ⟨_, _, hlaps, ⟨rfl, rfl⟩, rfl⟩,
      rfl⟩, rfl⟩⟩
  refine ⟨.borrowing :: .testing 4 .reading :: .testing 8 .readingFirst ::
    (ρ ++ ρ' ++ .testing 8 .readingFirst :: ρ), ρ' ++ [.testing 8 .readingFirst],
    by simpa using hpath, ?_⟩
  simp only [map_cons, map_append, hρ, hρ']
  rfl

namespace Context

lemma leadsToRead_of_positions {c : Context} {h : Holder} {before seg after : List Event}
    {ps : List Int} {u : Int} (hpath : c.function.Path (before ++ seg ++ after))
    (hps : seg.map Event.pos = ps) (hfirst : ps.head? = some h.since) (hlast : ps.getLast? = some u)
    (hreads : u ∈ c.tree.usesOf h.binding)
    (hkeeps : ∀ p ∈ ps.tail.dropLast, p ∉ c.tree.defsOf h.binding) : c.LeadsToRead h seg u where
  path := ⟨before, after, hpath⟩
  first := by rwa [← head?_map, hps]
  last := by rwa [← getLast?_map, hps]
  reads := hreads
  keeps e he := by
    refine hkeeps e.pos ?_
    rw [← hps, ← map_tail, ← map_dropLast]
    exact mem_map_of_mem he

lemma exists_run_of_test {program : Program} {f : Function} {options : Options}
    {test : Context × Session → Bool}
    (h : ((build program f options >>= fun c => (c, ·) <$> c.run).toOption.any test) = true) :
    ∃ c s, build program f options = .ok c ∧ c.run = .ok s ∧ test (c, s) = true := by
  obtain ⟨r, hr, htest⟩ := Fault.exists_ok h
  obtain ⟨c, hbuild, hr⟩ := bind_eq_ok.mp hr
  obtain ⟨s, hrun, rfl⟩ := map_eq_ok.mp hr
  exact ⟨c, s, hbuild, hrun, htest⟩

lemma exists_loan_reread : ∃ c s A h, build { types := .texts } .reread {} = .ok c ∧
    c.run = .ok s ∧ A ∈ s.loans ∧ h ∈ A.holders ∧ h.since = 3 ∧
    c.tree.usesOf h.binding = [6, 10] ∧ c.tree.defsOf h.binding = [3] ∧
    ([3, 4, 5, 6, 7].all A.activeAt) = true ∧ A.activeAt 11 = false ∧ A.activeAt 12 = false := by
  have hok : ((build { types := .texts } .reread {} >>= fun c => (c, ·) <$> c.run).toOption.any
      fun (c, s) => s.loans.any fun A => A.holders.any fun h => decide (h.since = 3 ∧
        c.tree.usesOf h.binding = [6, 10] ∧ c.tree.defsOf h.binding = [3] ∧
        ([3, 4, 5, 6, 7].all A.activeAt) = true ∧
        A.activeAt 11 = false ∧ A.activeAt 12 = false)) = true := by decide +kernel
  obtain ⟨c, s, hbuild, hrun, htest⟩ := exists_run_of_test hok
  obtain ⟨A, hA, htest⟩ := any_eq_true.mp htest
  obtain ⟨h, hh, htest⟩ := any_eq_true.mp htest
  exact ⟨c, s, A, h, hbuild, hrun, hA, hh, of_decide_eq_true htest⟩

/-- The first loop carries the reference around, and the loan is live on the path through it. -/
theorem live_on_path_iff_reaches_reread : ∃ c s A h seg,
    build { types := .texts } .reread {} = .ok c ∧ c.run = .ok s ∧ A ∈ s.loans ∧ h ∈ A.holders ∧
    c.LeadsToRead h seg 6 ∧ seg.map Event.pos = [3, 4, 5, 6, 7, 4, 5, 6] ∧
    (∀ e ∈ seg, A.activeAt e.pos = true) ∧ A.Reaches c.tree 6 ∧
    ∀ m ∈ c.tree.loops, GoesRound m seg → A.Reaches c.tree m.start ∧ A.Reaches c.tree m.stop := by
  obtain ⟨c, s, A, h, hbuild, hrun, hA, hh, hsince, huses, hdefs, hactive, -, -⟩ :=
    exists_loan_reread
  obtain ⟨seg, after, hpath, hps⟩ := Function.path_reread_first
  rw [← (build_fields hbuild).2.2] at hpath
  have hseg : c.LeadsToRead h seg 6 := by
    refine leadsToRead_of_positions hpath hps (by simp [hsince]) rfl (by simp [huses]) ?_
    rw [hdefs]
    decide
  have hlive : ∀ e ∈ seg, A.activeAt e.pos = true := by
    intro e he
    have hpos : e.pos ∈ seg.map Event.pos := mem_map_of_mem he
    rw [hps] at hpos
    refine all_eq_true.mp hactive e.pos ?_
    simp only [mem_cons, not_mem_nil, or_false] at hpos ⊢
    omega
  exact ⟨c, s, A, h, seg, hbuild, hrun, hA, hh, hseg, hps, hlive,
    (live_on_path_iff_reaches hbuild hrun hA hh hseg).mp hlive⟩

/-- The path that leaves the first loop at once and goes round the second one reads the reference
again, but in the text the second loop is not reached to its end: only the first loop counts. -/
theorem not_live_on_path_reread : ∃ c s A h seg,
    build { types := .texts } .reread {} = .ok c ∧ c.run = .ok s ∧ A ∈ s.loans ∧ h ∈ A.holders ∧
    c.LeadsToRead h seg 10 ∧ seg.map Event.pos = [3, 4, 8, 9, 10, 11, 12, 8, 9, 10] ∧
    A.activeAt 11 = false ∧ A.activeAt 12 = false := by
  obtain ⟨c, s, A, h, hbuild, hrun, hA, hh, hsince, huses, hdefs, -, hdead⟩ := exists_loan_reread
  obtain ⟨seg, after, hpath, hps⟩ := Function.path_reread_second
  rw [← (build_fields hbuild).2.2] at hpath
  refine ⟨c, s, A, h, seg, hbuild, hrun, hA, hh, ?_, hps, hdead⟩
  refine leadsToRead_of_positions hpath hps (by simp [hsince]) rfl (by simp [huses]) ?_
  rw [hdefs]
  decide

end Context

end Ownership
