import Ownership.Proofs.Scope.Resolution

/-!
# How scopes nest

Scopes are entered and left like brackets. Every scope of a tree starts at an entry and stops at
the exit that names this entry, and every exit belongs to a scope. A binding belongs to the
innermost scope around its declaration: no other scope around it ends earlier. From position to
position the open scopes change where scopes are entered and left, and the bindings that are alive
change where bindings are declared and where their scopes end.
-/

namespace Ownership

open List

/-- Positions tell the events of a stream apart. -/
lemma Numbered.eq_of_pos {es : List Event} (h : Numbered es) {e e' : Event} (he : e ∈ es)
    (he' : e' ∈ es) (hpos : e.pos = e'.pos) : e = e' := by
  obtain ⟨i, hi, rfl⟩ := getElem_of_mem he
  obtain ⟨j, hj, rfl⟩ := getElem_of_mem he'
  have hasc := pairwise_iff_getElem.mp h.ascending
  rcases lt_trichotomy i j with hij | rfl | hij
  · exact absurd hpos (hasc i j hi hj hij).ne
  · rfl
  · exact absurd hpos (hasc j i hj hi hij).ne'

namespace ScopeBuilder

variable {b b' : ScopeBuilder} {e : Event} {es : List Event} {id : Nat} {s : Scope}

/-- Whether a scope outlasts another one: it stays open while the other one is open, and it ends
later. -/
def Outlasts (b : ScopeBuilder) (id id' : Nat) : Prop :=
  (id' ∈ b.ids → id ∈ b.ids) ∧ ∀ s s', b.tree.scopes[id]? = some s →
    b.tree.scopes[id']? = some s' → id ∉ b.ids → s'.stop < s.stop

/-- What is known of the nesting of scopes after a stream has been read. -/
structure Nested (es : List Event) (b : ScopeBuilder) : Prop where
  descending : b.ids.Pairwise (· > ·)
  ascending : ∀ (i j : Nat) (s s' : Scope), i < j → b.tree.scopes[i]? = some s →
    b.tree.scopes[j]? = some s' → s.start < s'.start
  known : ∀ (id : Nat) (s : Scope), b.tree.scopes[id]? = some s →
    s.id = id ∧ b.tree.opened.get? s.start = some id
  entered : ∀ (id : Nat) (s : Scope), b.tree.scopes[id]? = some s →
    ∃ e ∈ es, e.kind = .enter ∧ e.pos = s.start
  labelled : ∀ o ∈ b.stack, ∃ s, b.tree.scopes[o.scope.id]? = some s ∧ s.start = o.label
  left : ∀ (id : Nat) (s : Scope), b.tree.scopes[id]? = some s → id ∉ b.ids →
    ∃ e ∈ es, e.kind = .exit ∧ e.label = s.start ∧ e.pos = s.stop ∧ s.start < s.stop
  exits : ∀ e ∈ es, e.kind = .exit → ∃ id s, b.tree.scopes[id]? = some s ∧ id ∉ b.ids ∧
    s.start = e.label ∧ s.stop = e.pos
  /-- The scopes around the entry of a scope outlast it. -/
  layered : ∀ (id id' : Nat) (s : Scope), b.tree.scopes[id']? = some s → b.OpenAt id s.start →
    b.Outlasts id id'
  /-- Around a declaration the owner of the binding is the scope that was entered last. -/
  innermost : ∀ x ∈ b.tree.bindings, ∀ id, b.OpenAt id x.declaredAt → id ≤ x.scope

lemma mem_ids_exited {top : OpenScope} {rest : List OpenScope} (hb : b.stack = top :: rest) :
    id ∈ b.ids ↔ id = top.scope.id ∨ id ∈ (b.exited e top rest).ids := by
  rw [ids_exited (e := e) hb, mem_cons]

/-- Just before an event the open scopes are those that have not been left. -/
lemma Placed.openAt_pos (h : Placed es b) (hpos : ∀ e' ∈ es, e'.pos < e.pos) :
    b.OpenAt id e.pos ↔ id ∈ b.ids := by
  constructor
  · rintro ⟨s, hs, -, hid | hstop⟩
    · exact hid
    · by_contra hid
      obtain ⟨e', he', hstop'⟩ := h.stopped id s hs hid
      have := hpos e' he'
      omega
  · intro hid
    have hs := getElem?_eq_getElem (h.bounded id hid)
    obtain ⟨e', he', hstart⟩ := h.started id _ hs
    exact ⟨_, hs, hstart ▸ hpos e' he', .inl hid⟩

namespace Nested

variable {id' : Nat} {top : OpenScope} {rest : List OpenScope}

lemma empty (tree : ScopeTree) (hs : tree.scopes = []) (hb : tree.bindings = []) :
    Nested [] { tree } := by
  constructor <;> simp [ids, hs, hb]

variable (h : Nested es b)

include h

lemma start_lt (hpos : ∀ e' ∈ es, e'.pos < e.pos) (hs : b.tree.scopes[id]? = some s) :
    s.start < e.pos := by
  obtain ⟨e', he', -, hstart⟩ := h.entered id s hs
  exact hstart ▸ hpos e' he'

lemma lt_of_start_lt {s' : Scope} (hs : b.tree.scopes[id]? = some s)
    (hs' : b.tree.scopes[id']? = some s') (hlt : s.start < s'.start) : id < id' := by
  rcases lt_trichotomy id id' with hid | rfl | hid
  · exact hid
  · obtain rfl := Option.mem_unique hs hs'
    exact absurd hlt (lt_irrefl _)
  · exact absurd (h.ascending _ _ _ _ hid hs' hs) hlt.not_gt

variable (hp : Placed es b)

include hp

/-- What is open when a scope begins outlasts it. -/
lemma layered_enter (hpos : ∀ e' ∈ es, e'.pos < e.pos) (hs : (b.enter e).tree.scopes[id']? = some s)
    (hopen : (b.enter e).OpenAt id s.start) : (b.enter e).Outlasts id id' := by
  rw [Outlasts, ids_enter]
  rcases scopes_enter_cases hs with hs | ⟨rfl, -, hstart, -⟩
  · obtain ⟨hin, hout⟩ := h.layered id id' s hs ((openAt_enter (h.start_lt hpos hs).le).mp hopen)
    have hne : id' ≠ b.tree.scopes.length := (List.getElem?_eq_some_iff.mp hs).1.ne
    refine ⟨fun hid' => ?_, fun S S' hS hS' hid => ?_⟩
    · exact mem_cons_of_mem _ (hin ((mem_cons.mp hid').resolve_left hne))
    · rw [mem_cons, not_or] at hid
      exact hout S S' ((scopes_enter_cases hS).resolve_right fun h => hid.1 h.1)
        ((scopes_enter_cases hS').resolve_right fun h => hne h.1) hid.2
  · rw [hstart, openAt_enter le_rfl, hp.openAt_pos hpos] at hopen
    have hid := mem_cons_of_mem b.tree.scopes.length hopen
    exact ⟨fun _ => hid, fun _ _ _ _ hout => absurd hid hout⟩

/-- A scope that begins is nested in those that are open. -/
lemma enter (hn : Numbered (es ++ [e])) (he : e.kind = .enter) :
    Nested (es ++ [e]) (b.enter e) := by
  have hpos := hn.of_append_singleton.2
  have hlabel : e.label = e.pos := hn.labelled e (by simp) (by simp [he])
  have hopened : ∀ label, (b.enter e).tree.opened.get? label =
      if label = e.label then some b.tree.scopes.length else b.tree.opened.get? label :=
    fun label => Registry.get?_insert ..
  constructor
  · rw [ids_enter]
    exact pairwise_cons.mpr ⟨fun id hid => hp.bounded id hid, h.descending⟩
  · intro i j s s' hij hs hs'
    rcases scopes_enter_cases hs' with hs' | ⟨rfl, -, hstart, -⟩
    · have hj := (List.getElem?_eq_some_iff.mp hs').1
      exact h.ascending i j s s' hij ((scopes_enter_cases hs).resolve_right (by omega)) hs'
    · rw [hstart]
      exact h.start_lt hpos ((scopes_enter_cases hs).resolve_right fun h => hij.ne h.1)
  · intro id s hs
    rw [hopened, hlabel]
    rcases scopes_enter_cases hs with hs | ⟨hid, hsid, hstart, -⟩
    · rw [if_neg (h.start_lt hpos hs).ne]
      exact h.known id s hs
    · rw [if_pos hstart, hid]
      exact ⟨hsid.trans hid, rfl⟩
  · intro id s hs
    rcases scopes_enter_cases hs with hs | ⟨-, -, hstart, -⟩
    · exact exists_mem_concat (h.entered id s hs)
    · exact ⟨e, by simp, he, hstart.symm⟩
  · intro o ho
    rcases mem_cons.mp ho with rfl | ho
    · refine ⟨_, getElem?_concat_length, ?_⟩
      exact hlabel.symm
    · obtain ⟨s, hs, hstart⟩ := h.labelled o ho
      exact ⟨s, scopes_enter_of_some hs, hstart⟩
  · intro id s hs hid
    rw [ids_enter, mem_cons, not_or] at hid
    rcases scopes_enter_cases hs with hs | ⟨hlen, -⟩
    · exact exists_mem_concat (h.left id s hs hid.2)
    · exact absurd hlen hid.1
  · intro e' he' hk
    obtain ⟨id, s, hs, hid, hse⟩ := h.exits e' (mem_of_kind_ne he' (by simp [hk, he])) hk
    refine ⟨id, s, scopes_enter_of_some hs, ?_, hse⟩
    rw [ids_enter, mem_cons, not_or]
    exact ⟨(List.getElem?_eq_some_iff.mp hs).1.ne, hid⟩
  · exact fun id id' s hs hopen => h.layered_enter hp hpos hs hopen
  · exact fun x hx id hopen => h.innermost x hx id
      ((openAt_enter (hp.declaredAt_lt hpos hx).le).mp hopen)

omit hp in
lemma mem_exited_of_lt (hb : b.stack = top :: rest) (hid' : id' ∈ b.ids) (hid : id ∈ b.ids)
    (hlt : id < id') : id ∈ (b.exited e top rest).ids := by
  have hdesc := h.descending
  rw [ids_exited (e := e) hb, pairwise_cons] at hdesc
  refine ((mem_ids_exited hb).mp hid).resolve_left fun htop => ?_
  rcases (mem_ids_exited (e := e) hb).mp hid' with hid' | hid'
  · omega
  · have := hdesc.1 id' hid'
    omega

/-- The scope that ends is outlasted by those that stay open. -/
lemma layered_exit (hpos : ∀ e' ∈ es, e'.pos < e.pos) (hr : b.Reads e (b.exited e top rest))
    (hb : b.stack = top :: rest) (hs : (b.exited e top rest).tree.scopes[id']? = some s)
    (hopen : (b.exited e top rest).OpenAt id s.start) : (b.exited e top rest).Outlasts id id' := by
  have hmem : ∀ {id : Nat}, id ∈ b.ids ↔ id = top.scope.id ∨ id ∈ (b.exited e top rest).ids :=
    mem_ids_exited hb
  obtain ⟨s₀, hs₀, hstart⟩ : ∃ s₀, b.tree.scopes[id']? = some s₀ ∧ s.start = s₀.start := by
    rcases scopes_exited_cases hs with ⟨-, hs⟩ | ⟨-, s₀, hs₀, rfl⟩
    · exact ⟨s, hs, rfl⟩
    · exact ⟨s₀, hs₀, rfl⟩
  rw [hstart, hp.openAt_iff hr (h.start_lt hpos hs₀)] at hopen
  obtain ⟨hin, hout⟩ := h.layered id id' s₀ hs₀ hopen
  have hlt : id < id' := by
    obtain ⟨S, hS, hSstart, -⟩ := hopen
    exact h.lt_of_start_lt hS hs₀ hSstart
  have hstay : id' ∈ b.ids → id ∈ (b.exited e top rest).ids :=
    fun hid' => h.mem_exited_of_lt hb hid' (hin hid') hlt
  refine ⟨fun hid' => hstay (hmem.mpr (.inr hid')), fun S S' hS hS' hid => ?_⟩
  have hgone : id' ∉ b.ids := fun hid' => hid (hstay hid')
  obtain ⟨-, hS'⟩ := (scopes_exited_cases hS').resolve_right fun h => hgone (hmem.mpr (.inl h.1))
  rcases scopes_exited_cases hS with ⟨hne, hS⟩ | ⟨-, S₀, -, rfl⟩
  · exact hout S S' hS hS' fun hid' => (hmem.mp hid').elim hne hid
  · -- The outer scope ends here, the inner one has ended before.
    obtain ⟨e', he', -, -, hstop, -⟩ := h.left id' S' hS' hgone
    exact hstop ▸ hpos e' he'

variable (hn : Numbered (es ++ [e]))

include hn

/-- Only the innermost scope ends. -/
lemma exit (he : e.kind = .exit) {top : OpenScope} {rest : List OpenScope}
    (hb : b.stack = top :: rest)
    (hl : top.label = e.label) : Nested (es ++ [e]) (b.exited e top rest) := by
  have hpos := hn.of_append_singleton.2
  have hr : b.Reads e (b.exited e top rest) := .exit he hb hl
  have hdesc := h.descending
  rw [ids_exited (e := e) hb, pairwise_cons] at hdesc
  have hgone : top.scope.id ∉ (b.exited e top rest).ids := fun hmem =>
    Nat.lt_irrefl _ (hdesc.1 _ hmem)
  obtain ⟨S, hS, hSstart⟩ := h.labelled top (by rw [hb]; exact mem_cons_self)
  have hmem : ∀ {id : Nat}, id ∈ b.ids ↔ id = top.scope.id ∨ id ∈ (b.exited e top rest).ids :=
    mem_ids_exited hb
  have hkeep : ∀ {id : Nat} {s : Scope}, id ≠ top.scope.id → b.tree.scopes[id]? = some s →
      (b.exited e top rest).tree.scopes[id]? = some s := by
    intro id s hid hs
    rw [getElem?_scopes_exited, if_neg (Ne.symm hid)]
    exact hs
  -- Leaving a scope changes nothing but where it stops.
  have hback : ∀ {id : Nat} {s : Scope}, (b.exited e top rest).tree.scopes[id]? = some s →
      ∃ s₀, b.tree.scopes[id]? = some s₀ ∧ s.id = s₀.id ∧ s.start = s₀.start := by
    intro id s hs
    rcases scopes_exited_cases hs with ⟨-, hs⟩ | ⟨-, s₀, hs₀, rfl⟩
    · exact ⟨s, hs, rfl, rfl⟩
    · exact ⟨s₀, hs₀, rfl, rfl⟩
  constructor
  · exact hdesc.2
  · intro i j s s' hij hs hs'
    obtain ⟨s₀, hs₀, -, hstart⟩ := hback hs
    obtain ⟨s₀', hs₀', -, hstart'⟩ := hback hs'
    rw [hstart, hstart']
    exact h.ascending i j s₀ s₀' hij hs₀ hs₀'
  · intro id s hs
    obtain ⟨s₀, hs₀, hid, hstart⟩ := hback hs
    rw [hid, hstart]
    exact h.known id s₀ hs₀
  · intro id s hs
    obtain ⟨s₀, hs₀, -, hstart⟩ := hback hs
    rw [hstart]
    exact exists_mem_concat (h.entered id s₀ hs₀)
  · intro o ho
    obtain ⟨s, hs, hstart⟩ := h.labelled o (by rw [hb]; exact mem_cons_of_mem _ ho)
    refine ⟨s, hkeep (fun hid => hgone ?_) hs, hstart⟩
    rw [← hid]
    exact mem_map_of_mem ho
  · intro id s hs hid
    rcases scopes_exited_cases hs with ⟨hne, hs⟩ | ⟨rfl, s₀, hs₀, rfl⟩
    · exact exists_mem_concat (h.left id s hs fun hin => (hmem.mp hin).elim hne hid)
    · obtain rfl := Option.mem_unique hs₀ hS
      have hlt := h.start_lt hpos hs₀
      exact ⟨e, by simp, he, (hSstart.trans hl).symm, rfl, hlt⟩
  · intro e' he' hk
    rcases mem_append.mp he' with he' | he'
    · obtain ⟨id, s, hs, hid, hse⟩ := h.exits e' he' hk
      have hne : id ≠ top.scope.id := by
        rintro rfl
        exact hid (hmem.mpr (.inl rfl))
      exact ⟨id, s, hkeep hne hs, fun hin => hid (hmem.mpr (.inr hin)), hse⟩
    · rw [mem_singleton.mp he']
      refine ⟨top.scope.id, { S with stop := e.pos }, ?_, hgone, hSstart.trans hl, rfl⟩
      rw [getElem?_scopes_exited, if_pos rfl, hS]
      rfl
  · exact fun id id' s hs hopen => h.layered_exit hp hpos hr hb hs hopen
  · exact fun x hx id hopen => h.innermost x hx id
      ((hp.openAt_iff hr (hp.declaredAt_lt hpos hx)).mp hopen)

/-- A node changes nothing about the nesting of scopes. -/
lemma step (he : e.kind = .step) {top : OpenScope} {rest : List OpenScope}
    (hb : b.stack = top :: rest) : Nested (es ++ [e]) (b.executed e top rest) := by
  have hids := ids_executed (e := e) hb
  have hopen : ∀ {id : Nat} {p : Int}, (b.executed e top rest).OpenAt id p ↔ b.OpenAt id p := by
    intro id p
    simp only [OpenAt, hids]
    rfl
  constructor
  · rw [hids]
    exact h.descending
  · exact h.ascending
  · exact h.known
  · exact fun id s hs => exists_mem_concat (h.entered id s hs)
  · intro o ho
    rcases mem_cons.mp ho with rfl | ho
    · exact h.labelled top (by rw [hb]; exact mem_cons_self)
    · exact h.labelled o (by rw [hb]; exact mem_cons_of_mem _ ho)
  · intro id s hs hid
    rw [hids] at hid
    exact exists_mem_concat (h.left id s hs hid)
  · intro e' he' hk
    rw [hids]
    exact h.exits e' (mem_of_kind_ne he' (by simp [hk, he])) hk
  · intro id id' s hs hid
    rw [Outlasts, hids]
    exact h.layered id id' s hs (hopen.mp hid)
  · intro x hx id hid
    rw [hopen] at hid
    rcases mem_append.mp hx with hx | hx
    · exact h.innermost x hx id hid
    · -- All scopes that are open here are on the stack, and the owner is on top of it.
      obtain ⟨hscope, -, hd, -⟩ := mem_introduced hx
      rw [hd, hp.openAt_pos hn.of_append_singleton.2] at hid
      have hdesc := h.descending
      simp only [ids, hb, map_cons, mem_cons, pairwise_cons] at hid hdesc
      rw [hscope]
      exact hid.elim (fun heq => heq.le) fun hin => (hdesc.1 id hin).le

theorem read (hr : b.Reads e b') : Nested (es ++ [e]) b' := by
  cases hr with
  | enter he => exact h.enter hp hn he
  | exit he hb hl => exact h.exit hp hn he hb hl
  | step he hb hk hnb => exact h.step hp hn he hb

end Nested

end ScopeBuilder

/-! ### Finished trees -/

/-- Whether a scope is open just before a position. -/
def Scope.UpTo (s : Scope) (p : Int) : Prop := s.start < p ∧ p ≤ s.stop

namespace ScopeTree

variable {f : Function} {t : ScopeTree} {e : Event} {es : List Event} {p : Int} {x : Binding}
  {s : Scope}

/-- What is known of the nesting of the scopes of a tree. -/
structure Nests (es : List Event) (t : ScopeTree) : Prop extends Exact es t where
  known : ∀ (id : Nat) (s : Scope), t.scopes[id]? = some s →
    s.id = id ∧ t.opened.get? s.start = some id
  entered : ∀ s ∈ t.scopes, ∃ e ∈ es, e.kind = .enter ∧ e.pos = s.start
  left : ∀ s ∈ t.scopes,
    ∃ e ∈ es, e.kind = .exit ∧ e.label = s.start ∧ e.pos = s.stop ∧ s.start < s.stop
  exits : ∀ e ∈ es, e.kind = .exit → ∃ s ∈ t.scopes, s.start = e.label ∧ s.stop = e.pos
  ascending : ∀ s ∈ t.scopes, ∀ s' ∈ t.scopes, s.id < s'.id ↔ s.start < s'.start
  layered : ∀ s ∈ t.scopes, ∀ s' ∈ t.scopes, s.start < s'.start → s'.start < s.stop →
    s'.stop < s.stop
  innermost : ∀ x ∈ t.bindings, ∀ s ∈ t.scopes, s.start < x.declaredAt → x.declaredAt < s.stop →
    t.ownerStop x ≤ s.stop

/-- The scopes of a function are nested. -/
theorem nests_of_ofFunction (h : ofFunction f = .ok t) : Nests f.events t := by
  have hexact := exact_of_ofFunction h
  obtain ⟨-, -, b, -, -, hread, hstack, rfl⟩ := ofEvents_eq_ok_iff.mp (ofEvents_of_ofFunction h)
  have hall : b.Placed f.events ∧ b.Nested f.events := by
    apply ScopeBuilder.read_induction (P := fun es b => b.Placed es ∧ b.Nested es) _ _
      f.numbered_events hread
    · exact ⟨.empty _ rfl rfl, .empty _ rfl rfl⟩
    · rintro es e m m' hn ⟨hp, hnest⟩ hr
      exact ⟨hp.read hr hn.of_append_singleton.2, hnest.read hp hn hr⟩
  obtain ⟨hp, hnest⟩ := hall
  have hnone : ∀ id, id ∉ b.ids := fun id hid => by
    rw [ScopeBuilder.ids, hstack] at hid
    cases hid
  have hget : ∀ {s : Scope}, s ∈ b.tree.scopes → b.tree.scopes[s.id]? = some s := by
    intro s hs
    obtain ⟨id, hid⟩ := mem_iff_getElem?.mp hs
    rwa [(hnest.known id s hid).1]
  have hlayered : ∀ s ∈ b.tree.scopes, ∀ s' ∈ b.tree.scopes, s.start < s'.start →
      s'.start < s.stop → s'.stop < s.stop := fun s hs s' hs' hlt hstop =>
    (hnest.layered s.id s'.id s' (hget hs') ⟨s, hget hs, hlt, .inr hstop⟩).2 s s' (hget hs)
      (hget hs') (hnone _)
  refine ⟨hexact, hnest.known, fun s hs => hnest.entered _ s (hget hs),
    fun s hs => hnest.left _ s (hget hs) (hnone _), fun e he hk => ?_, fun s hs s' hs' => ?_,
      hlayered,
    fun x hx s hs hstart hstop => ?_⟩
  · obtain ⟨id, s, hid, -, hse⟩ := hnest.exits e he hk
    exact ⟨s, mem_of_getElem? hid, hse⟩
  · exact ⟨fun hlt => hnest.ascending _ _ s s' hlt (hget hs) (hget hs'),
      fun hlt => hnest.lt_of_start_lt (hget hs) (hget hs') hlt⟩
  · obtain ⟨X, hX, hXstart, hXstop⟩ := hp.inside x hx
    have hXstop := hXstop.resolve_left (hnone _)
    rw [ownerStop, owner?, hX]
    change X.stop ≤ s.stop
    have hXmem := mem_of_getElem? hX
    have hle := hnest.innermost x hx s.id ⟨s, hget hs, hstart, .inr hstop⟩
    rw [← (hnest.known _ X hX).1] at hle
    rcases Nat.lt_or_eq_of_le hle with hlt | heq
    · exact (hlayered s hs X hXmem (hnest.ascending _ _ s X hlt (hget hs) (hget hXmem))
        (hXstart.trans hstop)).le
    · have := (hget hs).symm.trans (heq ▸ hget hXmem)
      rw [Option.some.inj this]

/-- Whether a binding has been declared before a position and its scope has not ended there. -/
structure Alive (t : ScopeTree) (p : Int) (x : Binding) : Prop where
  mem : x ∈ t.bindings
  earlier : x.declaredAt < p
  upTo : p ≤ t.ownerStop x

lemma Alive.of_visible {name : String} (hx : t.Visible p name x) : t.Alive p x := by
  obtain ⟨X, hX, -, hstop⟩ := hx.inside
  refine ⟨hx.mem, hx.earlier, ?_⟩
  rw [ownerStop, owner?, hX]
  exact hstop.le

/-- Whether the same scopes are open and the same bindings alive just before two positions. -/
structure Level (t : ScopeTree) (p q : Int) : Prop where
  upTo : ∀ S ∈ t.scopes, S.UpTo q ↔ S.UpTo p
  alive : ∀ x, t.Alive q x ↔ t.Alive p x

lemma Level.symm {q : Int} (h : t.Level p q) : t.Level q p :=
  ⟨fun S hS => (h.upTo S hS).symm, fun x => (h.alive x).symm⟩

lemma Level.trans {q r : Int} (h : t.Level p q) (h' : t.Level q r) : t.Level p r :=
  ⟨fun S hS => (h'.upTo S hS).trans (h.upTo S hS), fun x => (h'.alive x).trans (h.alive x)⟩

namespace Nests

variable (h : Nests es t) {s' S : Scope}

include h

/-! ### Scopes -/

variable (hs : s ∈ t.scopes)

include hs

lemma getElem?_id : t.scopes[s.id]? = some s := by
  obtain ⟨id, hid⟩ := mem_iff_getElem?.mp hs
  rwa [(h.known id s hid).1]

lemma eq_of_start (hs' : s' ∈ t.scopes) (hstart : s.start = s'.start) : s = s' := by
  have hid := (h.known _ s (h.getElem?_id hs)).2
  have hid' := (h.known _ s' (h.getElem?_id hs')).2
  rw [hstart, hid', Option.some.injEq] at hid
  have hget := h.getElem?_id hs
  rw [← hid, h.getElem?_id hs', Option.some.injEq] at hget
  exact hget.symm

lemma eq_of_stop (hs' : s' ∈ t.scopes) (hstop : s.stop = s'.stop) : s = s' := by
  obtain ⟨e, he, -, hl, hp, -⟩ := h.left s hs
  obtain ⟨e', he', -, hl', hp', -⟩ := h.left s' hs'
  obtain rfl := h.numbered.eq_of_pos he he' (by rw [hp, hp', hstop])
  exact h.eq_of_start hs hs' (by rw [← hl, ← hl'])

lemma scopeOf_start (kind : String) : t.scopeOf s.start kind = .ok s := by
  rw [scopeOf, (h.known _ s (h.getElem?_id hs)).2, Option.bind_some, h.getElem?_id hs]

variable (he : e ∈ es)

omit hs

include he

lemma start_ne (hk : e.kind ≠ .enter) (hs : s ∈ t.scopes) : s.start ≠ e.pos := by
  obtain ⟨e', he', hk', hp⟩ := h.entered s hs
  intro hstart
  rw [h.numbered.eq_of_pos he' he (hp.trans hstart)] at hk'
  exact hk hk'

lemma stop_ne (hk : e.kind ≠ .exit) (hs : s ∈ t.scopes) : s.stop ≠ e.pos := by
  obtain ⟨e', he', hk', -, hp, -⟩ := h.left s hs
  intro hstop
  rw [h.numbered.eq_of_pos he' he (hp.trans hstop)] at hk'
  exact hk hk'

lemma declaredAt_ne (hk : e.kind ≠ .step) (hx : x ∈ t.bindings) : x.declaredAt ≠ e.pos := by
  obtain ⟨e', he', hk', hp, -⟩ := h.declared x hx
  intro hdeclared
  rw [h.numbered.eq_of_pos he' he (hp.trans hdeclared)] at hk'
  exact hk hk'

lemma exists_entered (hk : e.kind = .enter) :
    ∃ S ∈ t.scopes, S.start = e.label ∧ S.start = e.pos := by
  obtain ⟨id, S, -, hS, hstart⟩ := h.opened e he hk
  have hlabel := h.numbered.labelled e he (by simp [hk])
  exact ⟨S, mem_of_getElem? hS, hstart.trans hlabel.symm, hstart⟩

lemma upTo_step (hk : e.kind = .step) (hs : s ∈ t.scopes) : s.UpTo (e.pos + 1) ↔ s.UpTo e.pos := by
  have hstart := h.start_ne he (by simp [hk]) hs
  have hstop := h.stop_ne he (by simp [hk]) hs
  unfold Scope.UpTo
  omega

/-- At its entry a scope is added to those that are open. -/
lemma upTo_enter (hk : e.kind = .enter) (hS : S ∈ t.scopes) (hentry : S.start = e.pos)
    (hs : s ∈ t.scopes) : s.UpTo (e.pos + 1) ↔ s = S ∨ s.UpTo e.pos := by
  have hstop := h.stop_ne he (by simp [hk]) hs
  obtain ⟨-, -, -, -, -, hlt⟩ := h.left S hS
  unfold Scope.UpTo
  constructor
  · rintro ⟨hstart, hle⟩
    by_cases heq : s.start = e.pos
    · exact .inl (h.eq_of_start hs hS (heq.trans hentry.symm))
    · exact .inr (by omega)
  · rintro (rfl | ⟨hstart, hle⟩)
    · omega
    · omega

/-- At its end a scope is taken from those that are open. -/
lemma upTo_exit (hk : e.kind = .exit) (hS : S ∈ t.scopes) (hend : S.stop = e.pos)
    (hs : s ∈ t.scopes) : s.UpTo (e.pos + 1) ↔ s.UpTo e.pos ∧ s ≠ S := by
  have hstart := h.start_ne he (by simp [hk]) hs
  unfold Scope.UpTo
  constructor
  · rintro ⟨hlt, hle⟩
    refine ⟨by omega, ?_⟩
    rintro rfl
    omega
  · rintro ⟨⟨hlt, hle⟩, hne⟩
    have hstop : s.stop ≠ e.pos := fun hstop => hne (h.eq_of_stop hs hS (hstop.trans hend.symm))
    omega

/-! ### Bindings -/

omit he in
lemma exists_owner (hx : x ∈ t.bindings) : ∃ X ∈ t.scopes, t.owner? x = some X ∧ X.id = x.scope ∧
    t.ownerStop x = X.stop ∧ X.start < x.declaredAt ∧ x.declaredAt < X.stop := by
  obtain ⟨X, hX, hstart, hstop⟩ := h.inside x hx
  exact ⟨X, mem_of_getElem? hX, hX, (h.known _ X hX).1, by rw [ownerStop, owner?, hX]; rfl,
    hstart, hstop⟩

lemma mem_declaredBy_iff (hk : e.kind = .step) :
    x ∈ t.declaredBy e.pos ↔ x ∈ t.bindings ∧ x.declaredAt = e.pos := by
  have hlabel := h.numbered.labelled e he (by simp [hk])
  rw [declaredBy, mem_filter, decide_eq_true_eq]
  refine and_congr_right fun hx => ?_
  obtain ⟨d, hd, hdk, hdpos, hdl⟩ := h.declared x hx
  have hdlabel := h.numbered.labelled d hd (by simp [hdk])
  omega

/-- A node adds what it declares to the bindings that are alive. -/
lemma alive_step (hk : e.kind = .step) :
    t.Alive (e.pos + 1) x ↔ t.Alive e.pos x ∨ x ∈ t.declaredBy e.pos := by
  rw [h.mem_declaredBy_iff he hk]
  constructor
  · rintro ⟨hx, hlt, hle⟩
    by_cases hd : x.declaredAt = e.pos
    · exact .inr ⟨hx, hd⟩
    · exact .inl ⟨hx, by omega, by omega⟩
  · intro halive
    have hx : x ∈ t.bindings := halive.elim (·.mem) (·.1)
    obtain ⟨X, hX, -, -, hstop, -, hinside⟩ := h.exists_owner hx
    have hne := h.stop_ne he (by simp [hk]) hX
    rcases halive with ⟨-, hlt, hle⟩ | ⟨-, hd⟩
    · exact ⟨hx, by omega, by omega⟩
    · exact ⟨hx, by omega, by omega⟩

lemma level_silent (hk : e.kind = .step) (hnone : e.node.declarations = []) :
    t.Level e.pos (e.pos + 1) := by
  obtain ⟨scope, index, hd⟩ := h.declares e he hk
  rw [hnone, h.numbered.labelled e he (by simp [hk])] at hd
  refine ⟨fun S hS => h.upTo_step he hk hS, fun x => ?_⟩
  rw [h.alive_step he hk, hd]
  exact or_iff_left not_mem_nil

lemma alive_enter (hk : e.kind = .enter) : t.Alive (e.pos + 1) x ↔ t.Alive e.pos x := by
  constructor
  · rintro ⟨hx, hlt, hle⟩
    have hne := h.declaredAt_ne he (by simp [hk]) hx
    exact ⟨hx, by omega, by omega⟩
  · rintro ⟨hx, hlt, hle⟩
    obtain ⟨X, hX, -, -, hstop, -, -⟩ := h.exists_owner hx
    have hne := h.stop_ne he (by simp [hk]) hX
    exact ⟨hx, by omega, by omega⟩

/-- The end of a scope takes its bindings away. -/
lemma alive_exit (hk : e.kind = .exit) (hS : S ∈ t.scopes) (hend : S.stop = e.pos) :
    t.Alive (e.pos + 1) x ↔ t.Alive e.pos x ∧ x.scope ≠ S.id := by
  constructor
  · rintro ⟨hx, hlt, hle⟩
    have hne := h.declaredAt_ne he (by simp [hk]) hx
    refine ⟨⟨hx, by omega, by omega⟩, fun hscope => ?_⟩
    rw [ownerStop, owner?, hscope, h.getElem?_id hS, Option.map_some, Option.getD_some] at hle
    omega
  · rintro ⟨⟨hx, hlt, hle⟩, hscope⟩
    obtain ⟨X, hX, -, hid, hstop, -, -⟩ := h.exists_owner hx
    have hne : X.stop ≠ e.pos := fun heq =>
      hscope (by rw [← hid, h.eq_of_stop hX hS (heq.trans hend.symm)])
    exact ⟨hx, by omega, by omega⟩

end Nests

end ScopeTree

end Ownership
