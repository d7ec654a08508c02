import Ownership.Proofs.Scope.Functions

/-!
# What a scope tree records

A stream is numbered if its positions ascend and the label of every node is the position of its
first event. While such a stream is read, the tree in the making places every binding in a scope
that was open when it was declared, keeps the bindings in the order of their indices, and remembers
where each node was executed, which scope it opened and which bindings it declared.
-/

namespace Ownership

open List

/-- Whether positions ascend and give the labels of the nodes that are entered or executed. -/
structure Numbered (es : List Event) : Prop where
  ascending : es.Pairwise fun e e' => e.pos < e'.pos
  labelled : ∀ e ∈ es, e.kind ≠ .exit → e.label = e.pos

lemma Numbered.of_append_singleton {es : List Event} {e : Event} (h : Numbered (es ++ [e])) :
    Numbered es ∧ ∀ e' ∈ es, e'.pos < e.pos := by
  obtain ⟨hasc, hlab⟩ := h
  rw [pairwise_append] at hasc
  refine ⟨⟨hasc.1, fun e' he' => hlab e' (mem_append_left _ he')⟩, ?_⟩
  intro e' he'
  exact hasc.2.2 e' he' e mem_cons_self

lemma Numbered.label_ne {es : List Event} {e : Event} (h : Numbered (es ++ [e]))
    (he : e.kind ≠ .exit) : ∀ e' ∈ es, e'.kind ≠ .exit → e'.label ≠ e.label := by
  intro e' he' hk
  rw [h.labelled e' (mem_append_left _ he') hk, h.labelled e (by simp) he]
  exact ne_of_lt (h.of_append_singleton.2 e' he')

lemma exists_mem_concat {es : List Event} {e : Event} {P : Event → Prop} (h : ∃ e' ∈ es, P e') :
    ∃ e' ∈ es ++ [e], P e' := by
  obtain ⟨e', he', hP⟩ := h
  exact ⟨e', mem_append_left _ he', hP⟩

lemma mem_of_kind_ne {es : List Event} {e e' : Event} (h : e' ∈ es ++ [e])
    (hk : e'.kind ≠ e.kind) : e' ∈ es := by
  rcases mem_append.mp h with h | h
  · exact h
  · obtain rfl := mem_singleton.mp h
    exact absurd rfl hk

namespace ScopeBuilder

variable {b b' : ScopeBuilder} {e : Event} {es : List Event} {label pos p : Int} {name : String}
  {x y : Binding} {scope index id : Nat} {ds : List Declaration} {top : OpenScope} {s : Scope}
  {rest : List OpenScope}

/-! ### Numbered bindings -/

/-- New bindings are numbered one after another. -/
lemma mem_numbered (h : x ∈ numbered scope label pos index ds) :
    index ≤ x.index ∧ x.index < index + ds.length ∧
      ∃ d ∈ ds, x = bindingOf scope label pos x.index d := by
  induction ds generalizing index with
  | nil => cases h
  | cons d ds ih =>
    rcases mem_cons.mp h with rfl | h
    · exact ⟨le_refl _, by simp [bindingOf], d, mem_cons_self, rfl⟩
    · obtain ⟨hle, hlt, d', hd', hx⟩ := ih h
      refine ⟨by omega, ?_, d', mem_cons_of_mem _ hd', hx⟩
      rw [length_cons]
      omega

lemma index_numbered {i : Nat} (h : (numbered scope label pos index ds)[i]? = some x) :
    x.index = index + i := by
  induction ds generalizing index i with
  | nil => cases h
  | cons d ds ih =>
    cases i with
    | zero =>
      cases h
      rfl
    | succ i =>
      rw [ih h]
      omega

lemma ascending_numbered (scope : Nat) (label pos : Int) (index : Nat) (ds : List Declaration) :
    (numbered scope label pos index ds).Pairwise fun x y => x.index < y.index := by
  induction ds generalizing index with
  | nil => exact .nil
  | cons d ds ih =>
    refine pairwise_cons.mpr ⟨fun y hy => ?_, ih (index + 1)⟩
    exact (mem_numbered hy).1

lemma map_numbered (scope : Nat) (label pos : Int) (index : Nat) (ds : List Declaration) :
    (numbered scope label pos index ds).map (fun x => (x.name, x.declaredAt)) =
      ds.map fun d => (d.name, pos) := by
  induction ds generalizing index with
  | nil => rfl
  | cons d ds ih => simp [numbered, bindingOf, ih]

lemma mem_introduced (h : x ∈ b.introduced e top) :
    x.scope = top.scope.id ∧ x.label = e.label ∧ x.declaredAt = e.pos ∧
      b.tree.bindings.length ≤ x.index := by
  obtain ⟨hle, -, d, -, hx⟩ := mem_numbered h
  rw [hx]
  exact ⟨rfl, rfl, rfl, hle⟩

/-! ### Open scopes -/

/-- The numbers of the open scopes, the innermost first. -/
def ids (b : ScopeBuilder) : List Nat := b.stack.map (·.scope.id)

/-- Whether a scope was open at a position, as far as the stream has been read. -/
def OpenAt (b : ScopeBuilder) (id : Nat) (p : Int) : Prop :=
  ∃ s, b.tree.scopes[id]? = some s ∧ s.start < p ∧ (id ∈ b.ids ∨ p < s.stop)

lemma ids_enter (b : ScopeBuilder) (e : Event) :
    (b.enter e).ids = b.tree.scopes.length :: b.ids := rfl

section

variable {top : OpenScope} {rest : List OpenScope} (hb : b.stack = top :: rest)

include hb

lemma ids_executed : (b.executed e top rest).ids = b.ids := by
  simp [ids, executed, OpenScope.add, hb]

lemma visible_executed :
    (b.executed e top rest).visible = (b.introduced e top).reverse ++ b.visible := by
  simp [visible, executed, OpenScope.add, hb]

lemma ids_exited : b.ids = top.scope.id :: (b.exited e top rest).ids := by
  simp [ids, exited, hb]

lemma visible_exited : b.visible = top.names ++ (b.exited e top rest).visible := by
  simp [visible, exited, hb]

end

/-- The innermost open scope and the scopes around it. -/
def around (b : ScopeBuilder) : List Nat :=
  match b.stack with
  | [] => []
  | top :: _ => top.scope.id :: top.scope.outer

lemma scopes_enter (b : ScopeBuilder) (e : Event) : ∃ s : Scope,
    (s.id = b.tree.scopes.length ∧ s.start = e.pos ∧ s.outer = b.around) ∧
      (b.enter e).tree.scopes = b.tree.scopes ++ [s] :=
  ⟨_, ⟨rfl, rfl, rfl⟩, rfl⟩

lemma scopes_enter_of_some (h : b.tree.scopes[id]? = some s) :
    (b.enter e).tree.scopes[id]? = some s :=
  (List.getElem?_append_left (List.getElem?_eq_some_iff.mp h).1).trans h

lemma scopes_enter_cases (h : (b.enter e).tree.scopes[id]? = some s) :
    b.tree.scopes[id]? = some s ∨
      (id = b.tree.scopes.length ∧ s.id = id ∧ s.start = e.pos ∧ s.outer = b.around) := by
  obtain ⟨new, ⟨hid, hstart, houter⟩, hscopes⟩ := scopes_enter b e
  rw [hscopes, getElem?_append] at h
  split at h
  · exact .inl h
  · obtain ⟨hlt, rfl⟩ := List.getElem?_eq_some_iff.mp h
    rw [length_singleton] at hlt
    have hlen : id = b.tree.scopes.length := by omega
    rw [getElem_singleton]
    exact .inr ⟨hlen, hid.trans hlen.symm, hstart, houter⟩

/-- The end of a scope is written down in it and nowhere else. -/
lemma getElem?_scopes_exited (b : ScopeBuilder) (e : Event) (top : OpenScope)
    (rest : List OpenScope) (id : Nat) : (b.exited e top rest).tree.scopes[id]? =
      if top.scope.id = id then b.tree.scopes[id]?.map fun s => { s with stop := e.pos }
      else b.tree.scopes[id]? := by
  unfold exited
  split
  · rename_i h
    rw [h, getElem?_modify_eq]
    rfl
  · rename_i h
    simp [h]

lemma scopes_exited_cases (h : (b.exited e top rest).tree.scopes[id]? = some s) :
    (id ≠ top.scope.id ∧ b.tree.scopes[id]? = some s) ∨
      (id = top.scope.id ∧ ∃ s₀, b.tree.scopes[id]? = some s₀ ∧ s = { s₀ with stop := e.pos }) := by
  rw [getElem?_scopes_exited] at h
  split at h
  · rename_i hid
    obtain ⟨s₀, hs₀, rfl⟩ := Option.map_eq_some_iff.mp h
    exact .inr ⟨hid.symm, s₀, hs₀, rfl⟩
  · rename_i hid
    exact .inl ⟨Ne.symm hid, h⟩

/-- What is known of the scopes and bindings after a stream has been read. -/
structure Placed (es : List Event) (b : ScopeBuilder) : Prop where
  started : ∀ (id : Nat) (s : Scope), b.tree.scopes[id]? = some s → ∃ e ∈ es, e.pos = s.start
  stopped : ∀ (id : Nat) (s : Scope), b.tree.scopes[id]? = some s → id ∉ b.ids →
    ∃ e ∈ es, e.pos = s.stop
  nodup : b.ids.Nodup
  bounded : ∀ id ∈ b.ids, id < b.tree.scopes.length
  indexed : ∀ (i : Nat) (x : Binding), b.tree.bindings[i]? = some x → x.index = i
  declared : ∀ x ∈ b.tree.bindings, ∃ e ∈ es, e.kind = .step ∧ e.pos = x.declaredAt ∧
    e.label = x.label
  inside : ∀ x ∈ b.tree.bindings, b.OpenAt x.scope x.declaredAt
  names : ∀ o ∈ b.stack, ∀ x, x ∈ o.names ↔ x ∈ b.tree.bindings ∧ x.scope = o.scope.id
  descending : b.visible.Pairwise fun x y => y.index < x.index

lemma openAt_enter (hp : p ≤ e.pos) : (b.enter e).OpenAt id p ↔ b.OpenAt id p := by
  constructor
  · rintro ⟨s, hs, hstart, hopen⟩
    rcases scopes_enter_cases hs with hs | ⟨-, -, hs, -⟩
    · have hne : id ≠ b.tree.scopes.length := (List.getElem?_eq_some_iff.mp hs).1.ne
      exact ⟨s, hs, hstart, hopen.imp_left fun hid => (mem_cons.mp hid).resolve_left hne⟩
    · omega
  · rintro ⟨s, hs, hstart, hopen⟩
    exact ⟨s, scopes_enter_of_some hs, hstart, hopen.imp_left (mem_cons_of_mem _)⟩

namespace Placed

lemma empty (tree : ScopeTree) (hs : tree.scopes = []) (hb : tree.bindings = []) :
    Placed [] { tree } := by
  constructor <;> simp [ids, ScopeBuilder.visible, hs, hb]

variable (h : Placed es b)

include h

lemma scope_lt (hx : x ∈ b.tree.bindings) : x.scope < b.tree.scopes.length := by
  obtain ⟨s, hs, -⟩ := h.inside x hx
  exact (List.getElem?_eq_some_iff.mp hs).1

lemma index_lt (hx : x ∈ b.tree.bindings) : x.index < b.tree.bindings.length := by
  obtain ⟨i, hi, rfl⟩ := getElem_of_mem hx
  rwa [h.indexed i _ (getElem?_eq_getElem hi)]

lemma declaredAt_lt (hpos : ∀ e' ∈ es, e'.pos < e.pos) (hx : x ∈ b.tree.bindings) :
    x.declaredAt < e.pos := by
  obtain ⟨d, hd, -, hdpos, -⟩ := h.declared x hx
  exact hdpos ▸ hpos d hd

/-- What is read later does not change which scopes are open earlier. -/
lemma openAt_iff (hr : b.Reads e b') {id : Nat} (hp : p < e.pos) :
    b'.OpenAt id p ↔ b.OpenAt id p := by
  cases hr with
  | enter he => exact openAt_enter hp.le
  | @exit he top rest hb hl =>
    have hids := ids_exited (e := e) hb
    have hnodup := h.nodup
    rw [hids, nodup_cons] at hnodup
    by_cases htop : top.scope.id = id
    · -- The scope that is left was open, and it stays open up to the event.
      subst htop
      simp only [OpenAt, getElem?_scopes_exited, if_true, hids, mem_cons, true_or, and_true,
        hnodup.1, false_or, Option.map_eq_some_iff]
      constructor
      · rintro ⟨s, ⟨s₀, hs₀, rfl⟩, hstart, -⟩
        exact ⟨s₀, hs₀, hstart⟩
      · rintro ⟨s₀, hs₀, hstart⟩
        exact ⟨_, ⟨s₀, hs₀, rfl⟩, hstart, hp⟩
    · simp only [OpenAt, getElem?_scopes_exited, htop, if_false, hids, mem_cons, Ne.symm htop,
        false_or]
  | @step he top rest hb hk hn =>
    simp only [OpenAt, ids_executed hb]
    rfl

omit h in
/-- Bindings are declared by nodes, where they stand. -/
lemma exists_bindings (hr : b.Reads e b') : ∃ new, b'.tree.bindings = b.tree.bindings ++ new ∧
    ∀ x ∈ new, e.kind = .step ∧ x.declaredAt = e.pos ∧ x.label = e.label := by
  cases hr with
  | enter he | exit he hb hl => exact ⟨[], (append_nil _).symm, fun x hx => nomatch hx⟩
  | @step he top rest hb hk hn =>
    refine ⟨b.introduced e top, rfl, fun x hx => ?_⟩
    obtain ⟨-, hl, hd, -⟩ := mem_introduced hx
    exact ⟨he, hd, hl⟩

lemma mem_visible (x : Binding) : x ∈ b.visible ↔ x ∈ b.tree.bindings ∧ x.scope ∈ b.ids := by
  simp only [ScopeBuilder.visible, mem_flatMap, ids, mem_map]
  constructor
  · rintro ⟨o, ho, hx⟩
    obtain ⟨hmem, hscope⟩ := (h.names o ho x).mp hx
    exact ⟨hmem, o, ho, hscope.symm⟩
  · rintro ⟨hmem, o, ho, hscope⟩
    exact ⟨o, ho, (h.names o ho x).mpr ⟨hmem, hscope.symm⟩⟩

lemma openAt_of_reads (hr : b.Reads e b') (hpos : ∀ e' ∈ es, e'.pos < e.pos)
    (hx : x ∈ b.tree.bindings) : b'.OpenAt x.scope x.declaredAt :=
  (h.openAt_iff hr (h.declaredAt_lt hpos hx)).mpr (h.inside x hx)

/-- The new scope starts after everything before. -/
lemma enter (he : e.kind = .enter) (hpos : ∀ e' ∈ es, e'.pos < e.pos) :
    Placed (es ++ [e]) (b.enter e) := by
  have hfresh : b.tree.scopes.length ∉ b.ids := fun hid => Nat.lt_irrefl _ (h.bounded _ hid)
  constructor
  · intro id s hs
    rcases scopes_enter_cases hs with hs | ⟨-, -, hstart, -⟩
    · exact exists_mem_concat (h.started id s hs)
    · exact ⟨e, by simp, hstart.symm⟩
  · intro id s hs hid
    rw [ids_enter, mem_cons, not_or] at hid
    rcases scopes_enter_cases hs with hs | ⟨hlen, -⟩
    · exact exists_mem_concat (h.stopped id s hs hid.2)
    · exact absurd hlen hid.1
  · rw [ids_enter]
    exact nodup_cons.mpr ⟨hfresh, h.nodup⟩
  · intro id hid
    rw [ids_enter, mem_cons] at hid
    obtain ⟨new, -, hscopes⟩ := scopes_enter b e
    rw [hscopes, length_append, length_singleton]
    rcases hid with rfl | hid
    · omega
    · exact Nat.lt_succ_of_lt (h.bounded id hid)
  · exact h.indexed
  · exact fun x hx => exists_mem_concat (h.declared x hx)
  · exact fun x hx => h.openAt_of_reads (.enter he) hpos hx
  · intro o ho x
    rcases mem_cons.mp ho with rfl | ho
    · refine ⟨fun hx => absurd hx not_mem_nil, ?_⟩
      rintro ⟨hx, hscope⟩
      exact absurd hscope (Nat.ne_of_lt (h.scope_lt hx))
    · exact h.names o ho x
  · exact h.descending

/-- The innermost scope stops after everything before. -/
lemma exit (he : e.kind = .exit) (hb : b.stack = top :: rest) (hl : top.label = e.label)
    (hpos : ∀ e' ∈ es, e'.pos < e.pos) : Placed (es ++ [e]) (b.exited e top rest) := by
  have hids := ids_exited (e := e) hb
  have hnodup := h.nodup
  rw [hids, nodup_cons] at hnodup
  have hdesc := h.descending
  rw [visible_exited (e := e) hb, pairwise_append] at hdesc
  constructor
  · intro id s hs
    rcases scopes_exited_cases hs with ⟨-, hs⟩ | ⟨-, s₀, hs₀, rfl⟩
    · exact exists_mem_concat (h.started id s hs)
    · exact exists_mem_concat (h.started id s₀ hs₀)
  · intro id s hs hid
    rcases scopes_exited_cases hs with ⟨htop, hs⟩ | ⟨-, s₀, -, rfl⟩
    · refine exists_mem_concat (h.stopped id s hs ?_)
      rw [hids, mem_cons, not_or]
      exact ⟨htop, hid⟩
    · exact ⟨e, by simp, rfl⟩
  · exact hnodup.2
  · intro id hid
    rw [show (b.exited e top rest).tree.scopes.length = b.tree.scopes.length by simp [exited]]
    apply h.bounded
    rw [hids]
    exact mem_cons_of_mem _ hid
  · exact h.indexed
  · exact fun x hx => exists_mem_concat (h.declared x hx)
  · exact fun x hx => h.openAt_of_reads (.exit he hb hl) hpos hx
  · intro o ho x
    apply h.names
    rw [hb]
    exact mem_cons_of_mem _ ho
  · exact hdesc.2.1

/-- The bindings that an executed node declares are names of the innermost scope and of no other
one. -/
lemma names_executed (hb : b.stack = top :: rest) : ∀ o ∈ (b.executed e top rest).stack,
    ∀ x, x ∈ o.names ↔ x ∈ (b.executed e top rest).tree.bindings ∧ x.scope = o.scope.id := by
  intro o ho x
  have hmem : x ∈ (b.executed e top rest).tree.bindings ↔
      x ∈ b.tree.bindings ∨ x ∈ b.introduced e top := mem_append
  rw [hmem]
  rcases mem_cons.mp ho with rfl | ho
  · have hnames := h.names top (by rw [hb]; exact mem_cons_self) x
    simp only [OpenScope.add, mem_append, mem_reverse, hnames]
    constructor
    · rintro (hx | hx)
      · exact ⟨.inr hx, (mem_introduced hx).1⟩
      · exact ⟨.inl hx.1, hx.2⟩
    · rintro ⟨hx | hx, hscope⟩
      · exact .inr ⟨hx, hscope⟩
      · exact .inl hx
  · rw [h.names o (by rw [hb]; exact mem_cons_of_mem _ ho) x]
    refine ⟨fun hx => ⟨.inl hx.1, hx.2⟩, ?_⟩
    rintro ⟨hx, hscope⟩
    refine ⟨hx.resolve_right fun hx => ?_, hscope⟩
    have hnodup := h.nodup
    simp only [ids, hb, map_cons, nodup_cons, mem_map] at hnodup
    refine hnodup.1 ⟨o, ho, ?_⟩
    rw [← hscope]
    exact (mem_introduced hx).1

/-- What a node declares belongs to the innermost scope. -/
lemma step (he : e.kind = .step) (hb : b.stack = top :: rest) (hk : e.node.isKnown = true)
    (hn : e.node.isBlock = false) (hpos : ∀ e' ∈ es, e'.pos < e.pos) :
    Placed (es ++ [e]) (b.executed e top rest) := by
  have hids := ids_executed (e := e) hb
  have htop : top.scope.id ∈ b.ids := by simp [ids, hb]
  obtain ⟨s, hs⟩ : ∃ s, b.tree.scopes[top.scope.id]? = some s :=
    ⟨_, getElem?_eq_getElem (h.bounded _ htop)⟩
  constructor
  · exact fun id s hs => exists_mem_concat (h.started id s hs)
  · intro id s hs hid
    rw [hids] at hid
    exact exists_mem_concat (h.stopped id s hs hid)
  · rw [hids]
    exact h.nodup
  · intro id hid
    rw [hids] at hid
    exact h.bounded id hid
  · intro i x hx
    change (b.tree.bindings ++ b.introduced e top)[i]? = some x at hx
    rw [getElem?_append] at hx
    split at hx
    · exact h.indexed i x hx
    · rw [index_numbered hx]
      omega
  · intro x hx
    rcases mem_append.mp hx with hx | hx
    · exact exists_mem_concat (h.declared x hx)
    · obtain ⟨-, hl, hd, -⟩ := mem_introduced hx
      exact ⟨e, by simp, he, hd.symm, hl.symm⟩
  · intro x hx
    rcases mem_append.mp hx with hx | hx
    · exact h.openAt_of_reads (.step he hb hk hn) hpos hx
    · obtain ⟨hscope, -, hd, -⟩ := mem_introduced hx
      obtain ⟨e', he', hstart⟩ := h.started _ s hs
      rw [hscope, hd]
      refine ⟨s, hs, ?_, .inl (by rw [hids]; exact htop)⟩
      rw [← hstart]
      exact hpos e' he'
  · exact h.names_executed hb
  · rw [visible_executed hb, pairwise_append, pairwise_reverse]
    refine ⟨ascending_numbered _ _ _ _ _, h.descending, fun x hx y hy => ?_⟩
    have hlt := h.index_lt ((h.mem_visible y).mp hy).1
    exact lt_of_lt_of_le hlt (mem_introduced (mem_reverse.mp hx)).2.2.2

/-- Reading an event keeps what is known of scopes and bindings. -/
theorem read (hr : b.Reads e b') (hpos : ∀ e' ∈ es, e'.pos < e.pos) : Placed (es ++ [e]) b' := by
  cases hr with
  | enter he => exact h.enter he hpos
  | exit he hb hl => exact h.exit he hb hl hpos
  | step he hb hk hn => exact h.step he hb hk hn hpos

end Placed

/-! ### Nodes -/

lemma declaredBy_executed_of_ne (hl : label ≠ e.label) :
    (b.executed e top rest).tree.declaredBy label = b.tree.declaredBy label := by
  change (b.tree.bindings ++ b.introduced e top).filter _ = _
  have hnew : (b.introduced e top).filter (fun x => decide (x.label = label)) = [] := by
    apply filter_eq_nil_iff.mpr
    intro x hx
    rw [decide_eq_true_eq, (mem_introduced hx).2.1]
    exact Ne.symm hl
  rw [filter_append, hnew, append_nil]
  rfl

/-- A node declares what it introduces. -/
lemma declaredBy_executed_self (h : Placed es b)
    (hl : ∀ e' ∈ es, e'.kind = .step → e'.label ≠ e.label) :
    (b.executed e top rest).tree.declaredBy e.label = b.introduced e top := by
  change (b.tree.bindings ++ b.introduced e top).filter _ = _
  rw [filter_append, filter_eq_nil_iff.mpr, nil_append, filter_eq_self.mpr]
  · intro x hx
    exact decide_eq_true (mem_introduced hx).2.1
  · intro x hx
    obtain ⟨e', he', hk, -, hxl⟩ := h.declared x hx
    rw [decide_eq_true_eq, ← hxl]
    exact hl e' he' hk

/-- What is known of single nodes after a stream has been read. -/
structure Recorded (es : List Event) (b : ScopeBuilder) : Prop where
  position : ∀ e ∈ es, e.kind = .step → b.tree.positions.get? e.label = some e.pos
  opened : ∀ e ∈ es, e.kind = .enter → ∃ id s, b.tree.opened.get? e.label = some id ∧
    b.tree.scopes[id]? = some s ∧ s.start = e.pos
  declares : ∀ e ∈ es, e.kind = .step → ∃ scope index,
    b.tree.declaredBy e.label = numbered scope e.label e.pos index e.node.declarations

namespace Recorded

lemma empty (b : ScopeBuilder) : Recorded [] b := by
  constructor <;> simp

lemma enter (h : Recorded es b) (he : e.kind = .enter) (hn : Numbered (es ++ [e])) :
    Recorded (es ++ [e]) (b.enter e) := by
  have hget : ∀ label, (b.enter e).tree.opened.get? label =
      if label = e.label then some b.tree.scopes.length else b.tree.opened.get? label :=
    fun label => Registry.get?_insert ..
  constructor
  · exact fun e' he' hs => h.position e' (mem_of_kind_ne he' (by simp [hs, he])) hs
  · intro e' he' hs
    rcases mem_append.mp he' with he' | he'
    · obtain ⟨id, s, hid, hs', hstart⟩ := h.opened e' he' hs
      refine ⟨id, s, ?_, scopes_enter_of_some hs', hstart⟩
      rw [hget, if_neg (hn.label_ne (by simp [he]) e' he' (by simp [hs]))]
      exact hid
    · obtain rfl := mem_singleton.mp he'
      obtain ⟨new, hnew, hscopes⟩ := scopes_enter b e'
      refine ⟨b.tree.scopes.length, new, by rw [hget, if_pos rfl], ?_, hnew.2.1⟩
      rw [hscopes, getElem?_append_right (le_refl _), Nat.sub_self]
      rfl
  · exact fun e' he' hs => h.declares e' (mem_of_kind_ne he' (by simp [hs, he])) hs

lemma exit (h : Recorded es b) (he : e.kind = .exit) :
    Recorded (es ++ [e]) (b.exited e top rest) := by
  constructor
  · exact fun e' he' hs => h.position e' (mem_of_kind_ne he' (by simp [hs, he])) hs
  · intro e' he' hs
    obtain ⟨id, s, hid, hs', hstart⟩ := h.opened e' (mem_of_kind_ne he' (by simp [hs, he])) hs
    refine ⟨id, if top.scope.id = id then { s with stop := e.pos } else s, hid, ?_, ?_⟩
    · rw [getElem?_scopes_exited, hs']
      split <;> rfl
    · split <;> exact hstart
  · exact fun e' he' hs => h.declares e' (mem_of_kind_ne he' (by simp [hs, he])) hs

lemma step (h : Recorded es b) (hp : Placed es b) (he : e.kind = .step)
    (hn : Numbered (es ++ [e])) : Recorded (es ++ [e]) (b.executed e top rest) := by
  have hget : ∀ label, (b.executed e top rest).tree.positions.get? label =
      if label = e.label then some e.pos else b.tree.positions.get? label :=
    fun label => Registry.get?_insert ..
  have hne := hn.label_ne (by simp [he])
  constructor
  · intro e' he' hs
    rcases mem_append.mp he' with he' | he'
    · rw [hget, if_neg (hne e' he' (by simp [hs]))]
      exact h.position e' he' hs
    · obtain rfl := mem_singleton.mp he'
      rw [hget, if_pos rfl]
  · exact fun e' he' hs => h.opened e' (mem_of_kind_ne he' (by simp [hs, he])) hs
  · intro e' he' hs
    rcases mem_append.mp he' with he' | he'
    · rw [declaredBy_executed_of_ne (hne e' he' (by simp [hs]))]
      exact h.declares e' he' hs
    · obtain rfl := mem_singleton.mp he'
      rw [declaredBy_executed_self hp fun e₀ he₀ hk₀ => hne e₀ he₀ (by simp [hk₀])]
      exact ⟨top.scope.id, b.tree.bindings.length, rfl⟩

/-- Reading an event keeps what is known of single nodes. -/
theorem read (h : Recorded es b) (hp : Placed es b) (hr : b.Reads e b')
    (hn : Numbered (es ++ [e])) : Recorded (es ++ [e]) b' := by
  cases hr with
  | enter he => exact h.enter he hn
  | exit he hb hl => exact h.exit he
  | step he hb hk hbl => exact h.step hp he hn

end Recorded

/-- A property of streams and trees in the making that reading an event keeps holds of every stream
that is read. -/
theorem read_induction {P : List Event → ScopeBuilder → Prop} (hnil : P [] b)
    (hstep : ∀ {es e m m'}, Numbered (es ++ [e]) → P es m → m.Reads e m' → P (es ++ [e]) m')
    (hes : Numbered es) (h : b.read es = .ok b') : P es b' := by
  induction es using reverseRecOn generalizing b' with
  | nil =>
    cases h
    exact hnil
  | append_singleton es e ih =>
    obtain ⟨m, hm, h⟩ := read_append_eq_ok.mp h
    obtain ⟨m', hm', h⟩ := read_cons_eq_ok.mp h
    cases h
    exact hstep hes (ih hes.of_append_singleton.1 hm) (step_eq_ok_iff.mp hm').2

end ScopeBuilder

/-! ### Functions -/

lemma Param.consecutive_eventsAll (p : Int) (params : List Param) :
    Consecutive (Param.eventsAll p params) p (p + params.length) := by
  induction params generalizing p with
  | nil => exact (Int.add_zero p).symm
  | cons param params ih =>
    refine ⟨rfl, ?_⟩
    convert ih (p + 1) using 1
    rw [length_cons]
    omega

lemma Function.consecutive_events (f : Function) : Consecutive f.events 0 (f.stop + 1) := by
  have hbody := (Stmt.spans_skeletonAll f.bodyStart f.body.stmts).consecutive
  rw [Stmt.events_skeletonAll] at hbody
  exact ⟨rfl, ((Param.consecutive_eventsAll 1 f.params).append hbody).append ⟨rfl, rfl⟩⟩

/-- The stream of a function is numbered. -/
theorem Function.numbered_events (f : Function) : Numbered f.events :=
  ⟨f.consecutive_events.ascending, f.listing_events.labelled⟩

end Ownership
