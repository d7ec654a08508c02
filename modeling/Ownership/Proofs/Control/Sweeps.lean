import Ownership.Proofs.Control.Visits

/-!
# A walk passes by what it visits

A walk goes forward in the text from one visited event to the next one, and back only where a loop
is walked again. So a walk that comes from before an event that it visits to behind it visits the
event on its way. What stands on some path is visited, and the end of a scope that stands on some
path is never met after a return.
-/

namespace Ownership

open List

/-! ### Sweeps -/

/-- Whether events begin with the first one in the text, end with the last one, and never jump over
one of them. -/
structure Sweep (es : List Event) : Prop where
  first : ∀ a ∈ es.head?, ∀ x ∈ es, a.pos ≤ x.pos
  last : ∀ z ∈ es.getLast?, ∀ x ∈ es, x.pos ≤ z.pos
  steps : es.IsChain fun a b => ∀ x ∈ es, a.pos < x.pos → b.pos ≤ x.pos

namespace Sweep

variable {es fs : List Event} {x : Event}

lemma nil : Sweep [] := ⟨by simp, by simp, .nil⟩

lemma singleton (e : Event) : Sweep [e] := ⟨by simp, by simp, .singleton e⟩

/-- Sweeps one behind the other are a sweep. -/
lemma append (h : Sweep es) (h' : Sweep fs) (hlt : ∀ e ∈ es, ∀ f ∈ fs, e.pos < f.pos) :
    Sweep (es ++ fs) where
  first a ha x hx := by
    rw [head?_append] at ha
    rcases Option.or_eq_some_iff.mp ha with ha | ⟨hnil, ha⟩
    · rcases mem_append.mp hx with hx | hx
      · exact h.first a ha x hx
      · exact (hlt a (mem_of_mem_head? ha) x hx).le
    · rw [head?_eq_none_iff.mp hnil, nil_append] at hx
      exact h'.first a ha x hx
  last z hz x hx := by
    rw [getLast?_append] at hz
    rcases Option.or_eq_some_iff.mp hz with hz | ⟨hnil, hz⟩
    · rcases mem_append.mp hx with hx | hx
      · exact (hlt x hx z (mem_of_mem_getLast? hz)).le
      · exact h'.last z hz x hx
    · rw [getLast?_eq_none_iff.mp hnil, append_nil] at hx
      exact h.last z hz x hx
  steps := by
    refine isChain_append.mpr ⟨?_, ?_, ?_⟩
    · refine h.steps.imp_of_mem_imp fun a b _ hb hab x hx hax => ?_
      rcases mem_append.mp hx with hx | hx
      · exact hab x hx hax
      · exact (hlt b hb x hx).le
    · refine h'.steps.imp_of_mem_imp fun a b ha _ hab x hx hax => ?_
      rcases mem_append.mp hx with hx | hx
      · have := hlt x hx a ha
        omega
      · exact hab x hx hax
    · intro a ha b hb x hx hax
      rcases mem_append.mp hx with hx | hx
      · have := h.last a ha x hx
        omega
      · exact h'.first b hb x hx

lemma twice (h : Sweep es) : Sweep (es ++ es) := by
  have hmem : ∀ {x}, x ∈ es ++ es ↔ x ∈ es := by simp
  constructor
  · intro a ha x hx
    rw [head?_append, Option.or_self] at ha
    exact h.first a ha x (hmem.mp hx)
  · intro z hz x hx
    rw [getLast?_append, Option.or_self] at hz
    exact h.last z hz x (hmem.mp hx)
  · have hsteps := h.steps.imp fun a b hab x hx => hab x (hmem.mp hx)
    refine isChain_append.mpr ⟨hsteps, hsteps, fun a _ b hb x hx _ => ?_⟩
    exact h.first b hb x (hmem.mp hx)

/-- Who passes by a position without leaving it out stops there. -/
lemma exists_pos_eq {p : Int} {a : Event} {l : List Event}
    (h : (a :: l).IsChain fun a b => a.pos < p → b.pos ≤ p) (ha : a.pos < p) {z : Event}
    (hz : z ∈ (a :: l).getLast?) (hp : p ≤ z.pos) : ∃ e ∈ l, e.pos = p := by
  induction l generalizing a with
  | nil =>
    rw [getLast?_singleton] at hz
    cases hz
    omega
  | cons b l ih =>
    obtain ⟨hab, hl⟩ := isChain_cons_cons.mp h
    have hb := hab ha
    by_cases hbp : b.pos = p
    · exact ⟨b, mem_cons_self, hbp⟩
    · rw [getLast?_cons_cons] at hz
      obtain ⟨e, he, hpos⟩ := ih hl (by omega) hz
      exact ⟨e, mem_cons_of_mem _ he, hpos⟩

variable (h : Sweep es) (hx : x ∈ es) (huniq : ∀ e ∈ es, e.pos = x.pos → e = x)

include h hx huniq

/-- A sweep that comes from before an event to behind it meets the event on its way. -/
lemma crosses {before between after : List Event} {e e' : Event}
    (hes : es = before ++ e :: between ++ e' :: after) (he : e.pos < x.pos) (he' : x.pos < e'.pos) :
    x ∈ between := by
  have hchain : (e :: (between ++ [e'])).IsChain fun a b => a.pos < x.pos → b.pos ≤ x.pos := by
    refine List.IsChain.infix (h.steps.imp fun a b hab => hab x hx) ⟨before, after, ?_⟩
    simp [hes]
  obtain ⟨y, hy, hpos⟩ := exists_pos_eq hchain he (z := e')
    (by simp [getLast?_cons, getLast?_append]) he'.le
  have hmem : y ∈ es := by
    rw [hes]
    simp only [mem_append, mem_cons, not_mem_nil, or_false] at hy ⊢
    tauto
  rcases mem_append.mp hy with hy | hy
  · rwa [← huniq y hmem hpos]
  · rw [mem_singleton.mp hy] at hpos
    omega

lemma mem_after {before after : List Event} {e : Event} (hes : es = before ++ e :: after)
    (he : e.pos < x.pos) : x ∈ after := by
  have hchain : (e :: after).IsChain fun a b => a.pos < x.pos → b.pos ≤ x.pos := by
    refine .suffix (h.steps.imp fun a b hab => hab x hx) ⟨before, ?_⟩
    exact hes.symm
  obtain ⟨z, hz⟩ : ∃ z, z ∈ (e :: after).getLast? :=
    ⟨_, getLast?_eq_some_getLast (cons_ne_nil e after)⟩
  have hlast : z ∈ es.getLast? := by
    rw [hes, getLast?_append, hz]
    rfl
  obtain ⟨y, hy, hpos⟩ := exists_pos_eq hchain he hz (h.last z hlast x hx)
  rwa [← huniq y (by rw [hes]; simp [hy]) hpos]

end Sweep

/-! ### Skeletons -/

namespace Skeleton

variable {c : Context} {s s' : Session} {lo hi : Int} {π : List Event} {r : Bool} {e : Event}
  {k : Skeleton}

lemma Spans.mem_visited (h : k.Spans lo hi) (he : e ∈ k.visited) : lo ≤ e.pos ∧ e.pos < hi :=
  h.mem_events (mem_events_of_visited k he)

/-- A walk sweeps over the events that it visits. -/
theorem Spans.sweep_visited (h : k.Spans lo hi) : Sweep k.visited := by
  induction k generalizing lo hi with
  | done => exact .nil
  | event e => exact .singleton e
  | scope start stop node kind body ih =>
    obtain ⟨rfl, rfl, hb⟩ := h
    have hle := hb.le
    refine (Sweep.singleton (.enter start node kind)).append ((ih hb).append (.singleton _) ?_) ?_
    · intro e he f hf
      rw [mem_singleton.mp hf]
      exact (hb.mem_visited he).2
    · intro e he f hf
      rw [mem_singleton.mp he]
      change start < f.pos
      rcases mem_append.mp hf with hf | hf
      · have := (hb.mem_visited hf).1
        omega
      · rw [mem_singleton.mp hf]
        change start < stop
        omega
  | noted pos k ih => exact ih h
  | seq k l ihk ihl =>
    obtain ⟨mid, hk, hl⟩ := h
    rw [visited]
    split
    · rw [append_nil]
      exact ihk hk
    · refine (ihk hk).append (ihl hl) fun e he f hf => ?_
      exact (hk.mem_visited he).2.trans_le (hl.mem_visited hf).1
  | fork k l ihk ihl =>
    obtain ⟨mid, hk, hl⟩ := h
    refine (ihk hk).append (ihl hl) fun e he f hf => ?_
    exact (hk.mem_visited he).2.trans_le (hl.mem_visited hf).1
  | loop pos test body loc inner ih =>
    obtain ⟨rfl, -, hin⟩ := h
    have hround : Sweep ([.test pos test body loc] ++ inner.visited) := by
      refine (Sweep.singleton _).append (ih hin) fun e he f hf => ?_
      rw [mem_singleton.mp he]
      change pos < f.pos
      have := (hin.mem_visited hf).1
      omega
    exact hround.twice

/-- A part that some path leaves does not always return. -/
lemma returns_of_path (hπ : k.Path π false) : k.returns = false := by
  induction k generalizing π with
  | done => rfl
  | event e => exact hπ.2.symm
  | scope start stop node kind body ih =>
    obtain ⟨ρ, hρ, -⟩ := hπ
    exact ih hρ
  | noted pos k ih => exact ih hπ
  | seq k l ihk ihl =>
    rcases hπ with ⟨-, hr⟩ | ⟨π₁, π₂, h₁, h₂, -⟩
    · cases hr
    · rw [returns, ihk h₁, ihl h₂]
      rfl
  | fork k l ihk ihl =>
    rw [returns]
    rcases hπ with hπ | hπ
    · rw [ihk hπ]
      rfl
    · rw [ihl hπ]
      exact Bool.and_false _
  | loop pos test body loc inner ih => rfl

lemma mem_laps {test : Event} {body : List Event → Bool → Prop} (hπ : Laps test body π r)
    (he : e ∈ π) : e = test ∨ ∃ ρ r, body ρ r ∧ e ∈ ρ := by
  induction hπ with
  | exit => exact .inl (mem_singleton.mp he)
  | again hπ _ ih =>
    rcases mem_cons.mp he with he | he
    · exact .inl he
    · rcases mem_append.mp he with he | he
      · exact .inr ⟨_, _, hπ, he⟩
      · exact ih he
  | leave hπ => exact (mem_cons.mp he).imp_right fun he => ⟨_, _, hπ, he⟩

def OnPath (k : Skeleton) (e : Event) : Prop := ∃ π r, k.Path π r ∧ e ∈ π

namespace OnPath

variable {k l : Skeleton}

lemma of_scope {start stop : Int} {node : Node} {kind : ScopeKind}
    (h : (scope start stop node kind k).OnPath e) : e = .enter start node kind ∨ k.OnPath e ∨
      (e = .exit start stop node ∧ k.returns = false) := by
  obtain ⟨-, r, ⟨ρ, hρ, rfl⟩, he⟩ := h
  refine (mem_cons.mp he).imp_right fun he => ?_
  rcases mem_append.mp he with he | he
  · exact .inl ⟨ρ, r, hρ, he⟩
  · cases r with
    | true => cases he
    | false => exact .inr ⟨mem_singleton.mp he, returns_of_path hρ⟩

lemma of_seq (h : (seq k l).OnPath e) : k.OnPath e ∨ (k.returns = false ∧ l.OnPath e) := by
  obtain ⟨π, r, ⟨hπ, -⟩ | ⟨π₁, π₂, h₁, h₂, rfl⟩, he⟩ := h
  · exact .inl ⟨π, true, hπ, he⟩
  · rcases mem_append.mp he with he | he
    · exact .inl ⟨π₁, false, h₁, he⟩
    · exact .inr ⟨returns_of_path h₁, π₂, r, h₂, he⟩

lemma of_fork (h : (fork k l).OnPath e) : k.OnPath e ∨ l.OnPath e := by
  obtain ⟨π, r, hπ, he⟩ := h
  exact hπ.imp (fun hπ => ⟨π, r, hπ, he⟩) fun hπ => ⟨π, r, hπ, he⟩

lemma of_loop {pos : Int} {test : Expr} {body : Block} {loc : Span}
    (h : (loop pos test body loc k).OnPath e) : e = .test pos test body loc ∨ k.OnPath e := by
  obtain ⟨π, r, hπ, he⟩ := h
  exact mem_laps hπ he

/-- What stands on a path is visited. -/
theorem mem_visited (h : k.OnPath e) : e ∈ k.visited := by
  induction k with
  | done | event e' =>
    obtain ⟨π, r, hπ, he⟩ := h
    rwa [hπ.1] at he
  | scope start stop node kind body ih =>
    rw [visited, mem_cons, mem_append, mem_singleton]
    exact h.of_scope.imp_right fun h => h.imp ih And.left
  | noted pos k ih => exact ih h
  | seq k l ihk ihl =>
    rw [visited, mem_append]
    refine h.of_seq.imp ihk ?_
    rintro ⟨hret, h⟩
    rw [hret]
    exact ihl h
  | fork k l ihk ihl =>
    rw [visited, mem_append]
    exact h.of_fork.imp ihk ihl
  | loop pos test body loc inner ih =>
    rw [visited, mem_cons, mem_append]
    exact h.of_loop.imp_right fun h => .inl (ih h)

/-- A walk comes to the end of a scope that stands on some path only where it has not returned. -/
theorem returned_of_exit (h : k.OnPath e) (hk : e.kind = .exit) (hc : c.tracksLoans = true)
    (hr : c.replays = 1) (hspans : k.Spans lo hi) (hwalk : k.walk c s = .ok s')
    (hs : s.flow.returned = false) {u : Session} (hu : (e, u) ∈ k.visits c s) :
    u.flow.returned = false := by
  -- The bounds of the parts of a skeleton tell apart in which one the event is visited.
  have hpos : ∀ {k : Skeleton} {lo hi : Int} {s s' : Session}, k.Spans lo hi → k.walk c s = .ok s' →
      s.flow.returned = false → (e, u) ∈ k.visits c s → lo ≤ e.pos ∧ e.pos < hi := by
    intro k lo hi s s' hspans h hs hu
    refine hspans.mem_visited ?_
    rw [← map_fst_visits hc hr k h hs]
    exact mem_map_of_mem hu
  induction k generalizing lo hi s s' with
  | done => cases hu
  | event e' =>
    obtain ⟨-, rfl⟩ := Prod.mk.inj (mem_singleton.mp hu)
    exact hs
  | scope start stop node kind body ih =>
    obtain ⟨rfl, rfl, hb⟩ := hspans
    obtain ⟨m, hm, hwalk⟩ := bind_eq_ok.mp hwalk
    obtain ⟨m', hm', -⟩ := bind_eq_ok.mp hwalk
    have hmret : m.flow.returned = false := Context.returned_execute rfl hm hs
    rw [visits, hm, Fault.seen_ok, hm', Fault.seen_ok] at hu
    simp only [mem_cons, mem_append, not_mem_nil, or_false, Prod.mk.injEq] at hu
    rcases h.of_scope with rfl | h | ⟨rfl, hret⟩
    · cases hk
    · have hin := hb.mem_visited h.mem_visited
      rcases hu with ⟨rfl, -⟩ | hu | ⟨rfl, -⟩
      · cases hk
      · exact ih h hb hm' hmret hu
      · exact absurd hin.2 (lt_irrefl stop)
    · rcases hu with ⟨heq, -⟩ | hu | ⟨-, rfl⟩
      · cases heq
      · exact absurd (hpos hb hm' hmret hu).2 (lt_irrefl stop)
      · rwa [walk_returned hc hr body hm' hmret]
  | noted pos k ih =>
    obtain ⟨m, hm, -⟩ := bind_eq_ok.mp hwalk
    exact ih h hspans hm hs hu
  | seq k l ihk ihl =>
    obtain ⟨mid, hsk, hsl⟩ := hspans
    obtain ⟨m, hm, hwalk⟩ := bind_eq_ok.mp hwalk
    rw [visits, hm, Fault.seen_ok, mem_append] at hu
    split at hu
    · rename_i hret
      have hu := hu.resolve_right not_mem_nil
      rw [walk_returned hc hr k hm hs] at hret
      refine ihk (h.of_seq.resolve_right fun h => ?_) hsk hm hs hu
      exact Bool.false_ne_true (h.1.symm.trans hret)
    · rename_i hret
      rw [if_neg hret] at hwalk
      rw [Bool.not_eq_true] at hret
      rcases h.of_seq with h | ⟨-, h⟩
      · refine ihk h hsk hm hs (hu.resolve_right fun hu => ?_)
        have := (hsk.mem_visited h.mem_visited).2
        have := (hpos hsl hwalk hret hu).1
        omega
      · refine ihl h hsl hwalk hret (hu.resolve_left fun hu => ?_)
        have := (hsl.mem_visited h.mem_visited).1
        have := (hpos hsk hm hs hu).2
        omega
  | fork k l ihk ihl =>
    obtain ⟨mid, hsk, hsl⟩ := hspans
    obtain ⟨s₁, h₁, hwalk⟩ := bind_eq_ok.mp hwalk
    obtain ⟨s₂, h₂, -⟩ := bind_eq_ok.mp hwalk
    rw [visits, h₁, Fault.seen_ok, mem_append] at hu
    rcases h.of_fork with h | h
    · refine ihk h hsk h₁ hs (hu.resolve_right fun hu => ?_)
      have := (hsk.mem_visited h.mem_visited).2
      have := (hpos hsl h₂ hs hu).1
      omega
    · refine ihl h hsl h₂ hs (hu.resolve_left fun hu => ?_)
      have := (hsl.mem_visited h.mem_visited).1
      have := (hpos hsk h₁ hs hu).2
      omega
  | loop pos test body loc inner ih =>
    obtain ⟨rfl, -, hin⟩ := hspans
    obtain ⟨m, s₁, m', s₂, hm, h₁, hm', h₂, rfl⟩ := walk_loop hr hwalk
    have hmret : m.flow.returned = false := Context.returned_execute rfl hm hs
    have hm'ret : m'.flow.returned = false := by
      refine Context.returned_execute rfl hm' ?_
      simp only [Flow.returned_merge, hmret, Bool.false_and]
    have h := h.of_loop.resolve_left fun he => by rw [he] at hk; cases hk
    rw [visits_loop hr hm h₁ hm' h₂] at hu
    simp only [mem_cons, mem_append, Prod.mk.injEq] at hu
    rcases hu with ⟨rfl, -⟩ | hu | ⟨rfl, -⟩ | hu
    · cases hk
    · exact ih h hin h₁ hmret hu
    · cases hk
    · exact ih h hin h₂ hm'ret hu

end OnPath

end Skeleton

end Ownership
