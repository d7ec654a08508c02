import Ownership.Proofs.Scope.Records

/-!
# Name resolution

A binding is visible at a position if it was declared before and its scope is open there. A name in
a statement means the latest declaration of that name that is visible at the statement, and nothing
if there is none. The uses and definitions that a scope tree lists for a binding are those of the
names that mean it.
-/

namespace Ownership

open List

namespace ScopeTree

/-- Whether a position lies strictly inside the scope with a number. -/
def OpenAt (t : ScopeTree) (id : Nat) (p : Int) : Prop :=
  ∃ s, t.scopes[id]? = some s ∧ s.start < p ∧ p < s.stop

/-- Whether a binding of a name was declared before a position and its scope is open there. -/
structure Visible (t : ScopeTree) (p : Int) (name : String) (x : Binding) : Prop where
  mem : x ∈ t.bindings
  named : x.name = name
  earlier : x.declaredAt < p
  inside : t.OpenAt x.scope p

/-- The positions at which an event uses a binding, once for every occurrence of a name that means
it. -/
def usedAt (t : ScopeTree) (x : Binding) (e : Event) : List Int :=
  if e.kind = .step then
    (e.node.usedNames.filter fun name => t.resolve e.label name = some x).map fun _ => e.pos
  else []

/-- Whether an event assigns a variable that means a binding. -/
def assignedAt (t : ScopeTree) (x : Binding) (e : Event) : Bool :=
  decide (e.kind = .step) && e.node.assigned?.any fun name =>
    decide (t.resolve e.label name = some x)

/-- The records of the names that an event uses. -/
def useRecords (t : ScopeTree) (e : Event) : List (Nat × Int) :=
  if e.kind = .step then
    e.node.usedNames.filterMap fun name => (t.resolve e.label name).map fun x => (x.index, e.pos)
  else []

/-- The records of the variable that an event assigns and of the bindings it declares. -/
def defRecords (t : ScopeTree) (e : Event) : List (Nat × Int) :=
  if e.kind = .step then
    (e.node.assigned?.toList.filterMap fun name =>
      (t.resolve e.label name).map fun x => (x.index, e.pos)) ++
        (t.declaredBy e.label).map fun x => (x.index, e.pos)
  else []

end ScopeTree

namespace ScopeBuilder

variable {b b' : ScopeBuilder} {e : Event} {es : List Event} {p : Int} {name : String}
  {x y : Binding}

/-! ### Looking up a name -/

/-- Whether a binding is visible at a position, as far as the stream has been read. -/
structure Sees (b : ScopeBuilder) (p : Int) (name : String) (x : Binding) : Prop where
  mem : x ∈ b.tree.bindings
  named : x.name = name
  earlier : x.declaredAt < p
  inside : b.OpenAt x.scope p

/-- Whether a binding is the latest one of its name that is visible. -/
def Means (b : ScopeBuilder) (p : Int) (name : String) (x : Binding) : Prop :=
  b.Sees p name x ∧ ∀ y, b.Sees p name y → y.index ≤ x.index

/-- In a list with descending indices the first binding of a name has the greatest index. -/
lemma find?_eq_some_iff_of_descending {l : List Binding}
    (h : l.Pairwise fun x y => y.index < x.index) :
    l.find? (·.name = name) = some x ↔
      (x ∈ l ∧ x.name = name) ∧ ∀ y ∈ l, y.name = name → y.index ≤ x.index := by
  induction l with
  | nil => simp
  | cons a l ih =>
    obtain ⟨ha, hl⟩ := pairwise_cons.mp h
    by_cases hn : a.name = name
    · rw [find?_cons_of_pos (by simpa using hn), Option.some.injEq]
      constructor
      · rintro rfl
        refine ⟨⟨mem_cons_self, hn⟩, fun y hy _ => ?_⟩
        rcases mem_cons.mp hy with rfl | hy
        · exact le_refl _
        · exact (ha y hy).le
      · rintro ⟨⟨hx, -⟩, hmax⟩
        rcases mem_cons.mp hx with rfl | hx
        · rfl
        · exact absurd (hmax a mem_cons_self hn) (not_le.mpr (ha x hx))
    · rw [find?_cons_of_neg (by simpa using hn), ih hl]
      constructor
      · rintro ⟨⟨hx, hxn⟩, hmax⟩
        refine ⟨⟨mem_cons_of_mem _ hx, hxn⟩, fun y hy hyn => ?_⟩
        rcases mem_cons.mp hy with rfl | hy
        · exact absurd hyn hn
        · exact hmax y hy hyn
      · rintro ⟨⟨hx, hxn⟩, hmax⟩
        rcases mem_cons.mp hx with rfl | hx
        · exact absurd hxn hn
        · exact ⟨⟨hx, hxn⟩, fun y hy => hmax y (mem_cons_of_mem _ hy)⟩

/-- Behind all events read so far, the visible bindings are those of the open scopes. -/
lemma sees_iff (h : Placed es b) (hpos : ∀ e ∈ es, e.pos < p) :
    b.Sees p name x ↔ x ∈ b.visible ∧ x.name = name := by
  rw [h.mem_visible]
  constructor
  · rintro ⟨hmem, hname, -, s, hs, -, hid | hstop⟩
    · exact ⟨⟨hmem, hid⟩, hname⟩
    · -- A scope that has been left was left before the position.
      by_cases hid : x.scope ∈ b.ids
      · exact ⟨⟨hmem, hid⟩, hname⟩
      · obtain ⟨e, he, hpe⟩ := h.stopped x.scope s hs hid
        have := hpos e he
        omega
  · rintro ⟨⟨hmem, hid⟩, hname⟩
    obtain ⟨e, he, -, hd, -⟩ := h.declared x hmem
    obtain ⟨s, hs⟩ : ∃ s, b.tree.scopes[x.scope]? = some s :=
      ⟨_, getElem?_eq_getElem (h.bounded _ hid)⟩
    obtain ⟨e', he', hstart⟩ := h.started x.scope s hs
    refine ⟨hmem, hname, hd ▸ hpos e he, s, hs, ?_, .inl hid⟩
    rw [← hstart]
    exact hpos e' he'

lemma lookup_eq_some_iff (h : Placed es b) (hpos : ∀ e ∈ es, e.pos < p) :
    b.lookup name = some x ↔ b.Means p name x := by
  simp only [Means, sees_iff h hpos]
  rw [lookup, find?_eq_some_iff_of_descending h.descending]
  simp only [and_imp]

lemma not_sees_of_lookup (h : Placed es b) (hpos : ∀ e ∈ es, e.pos < p)
    (hn : b.lookup name = none) (x : Binding) : ¬b.Sees p name x := by
  rw [sees_iff h hpos]
  rintro ⟨hx, hname⟩
  rw [lookup, find?_eq_none] at hn
  exact hn x hx (by simpa using hname)

/-! ### What later events change -/

/-- What is read later does not change what a name means earlier. -/
lemma sees_of_reads (h : Placed es b) (hr : b.Reads e b') (hp : p < e.pos) :
    b'.Sees p name x ↔ b.Sees p name x := by
  obtain ⟨new, hnew, hlate⟩ := Placed.exists_bindings hr
  constructor
  · rintro ⟨hmem, hname, hlt, hopen⟩
    rw [hnew] at hmem
    have hold : x ∈ b.tree.bindings := by
      rcases mem_append.mp hmem with hx | hx
      · exact hx
      · have := (hlate x hx).2.1
        omega
    exact ⟨hold, hname, hlt, (h.openAt_iff hr hp).mp hopen⟩
  · rintro ⟨hmem, hname, hlt, hopen⟩
    refine ⟨?_, hname, hlt, (h.openAt_iff hr hp).mpr hopen⟩
    rw [hnew]
    exact mem_append_left _ hmem

/-- What a node declares is not visible to the node itself. -/
lemma sees_executed {top : OpenScope} {rest : List OpenScope} (hb : b.stack = top :: rest) :
    (b.executed e top rest).Sees e.pos name x ↔ b.Sees e.pos name x := by
  have hopen : ∀ id, (b.executed e top rest).OpenAt id e.pos ↔ b.OpenAt id e.pos := by
    intro id
    simp only [OpenAt, ids_executed hb]
    rfl
  constructor
  · rintro ⟨hmem, hname, hlt, hx⟩
    refine ⟨?_, hname, hlt, (hopen _).mp hx⟩
    rcases mem_append.mp hmem with hmem | hmem
    · exact hmem
    · have := (mem_introduced hmem).2.2.1
      omega
  · rintro ⟨hmem, hname, hlt, hx⟩
    exact ⟨mem_append_left _ hmem, hname, hlt, (hopen _).mpr hx⟩

/-- What is known of names after a stream has been read. -/
structure Resolved (es : List Event) (b : ScopeBuilder) : Prop where
  meanings : ∀ e ∈ es, e.kind = .step → ∀ name ∈ e.node.usedNames ++ e.node.assigned?.toList, ∀ x,
    b.tree.resolve e.label name = some x ↔ b.Means e.pos name x
  missing : ∀ e ∈ es, e.kind = .step → ∀ name ∈ e.node.usedNames ++ e.node.assigned?.toList,
    b.tree.resolve e.label name = none → ∀ x, ¬b.Sees e.pos name x
  fresh : ∀ label name x, b.tree.resolve label name = some x →
    ∃ e ∈ es, e.kind = .step ∧ e.label = label
  uses : b.tree.uses = es.flatMap b.tree.useRecords
  defs : b.tree.defs = es.flatMap b.tree.defRecords

namespace Resolved

lemma empty (tree : ScopeTree) (hr : tree.resolved = .empty) (hu : tree.uses = [])
    (hd : tree.defs = []) : Resolved [] { tree } := by
  constructor <;> simp [ScopeTree.resolve, hr, hu, hd]

/-- Names stay as they are if the event that is read neither uses nor declares any. -/
lemma of_same (h : Resolved es b) (hp : Placed es b) (hr : b.Reads e b')
    (hpos : ∀ e' ∈ es, e'.pos < e.pos) (he : e.kind ≠ .step)
    (hres : b'.tree.resolved = b.tree.resolved) (huses : b'.tree.uses = b.tree.uses)
    (hdefs : b'.tree.defs = b.tree.defs) (hbind : b'.tree.bindings = b.tree.bindings) :
    Resolved (es ++ [e]) b' := by
  have hresolve : b'.tree.resolve = b.tree.resolve := by
    funext label name
    rw [ScopeTree.resolve, ScopeTree.resolve, hres]
  have hmem : ∀ e' ∈ es ++ [e], e'.kind = .step → e' ∈ es := by
    intro e' he' hs
    refine mem_of_kind_ne he' ?_
    rw [hs]
    exact .symm he
  constructor
  · intro e' he' hs name hname x
    have he'' := hmem e' he' hs
    rw [hresolve, h.meanings e' he'' hs name hname x]
    simp only [Means, sees_of_reads hp hr (hpos e' he'')]
  · intro e' he' hs name hname hnone x
    have he'' := hmem e' he' hs
    rw [sees_of_reads hp hr (hpos e' he'')]
    exact h.missing e' he'' hs name hname (by rwa [hresolve] at hnone) x
  · intro label name x hx
    rw [hresolve] at hx
    exact exists_mem_concat (h.fresh label name x hx)
  · have hrec : b'.tree.useRecords = b.tree.useRecords := by
      funext e'
      rw [ScopeTree.useRecords, ScopeTree.useRecords, hresolve]
    rw [huses, h.uses, hrec, flatMap_append]
    simp [ScopeTree.useRecords, he]
  · have hrec : b'.tree.defRecords = b.tree.defRecords := by
      funext e'
      rw [ScopeTree.defRecords, ScopeTree.defRecords, hresolve, ScopeTree.declaredBy,
        ScopeTree.declaredBy, hbind]
    rw [hdefs, h.defs, hrec, flatMap_append]
    simp [ScopeTree.defRecords, he]

section

variable {top : OpenScope} {rest : List OpenScope} {label : Int}

lemma resolve_executed : (b.executed e top rest).tree.resolve label name =
    if label = e.label ∧ name ∈ e.node.usedNames ++ e.node.assigned?.toList then
      (b.lookup name).or (b.tree.resolve label name) else b.tree.resolve label name :=
  get?_meanings ..

lemma resolve_executed_of_ne (hl : label ≠ e.label) :
    (b.executed e top rest).tree.resolve label name = b.tree.resolve label name := by
  rw [resolve_executed, if_neg fun h => hl h.1]

/-- A node that is executed has a new label, so that its names are those looked up now. -/
lemma resolve_executed_self (h : Resolved es b)
    (hne : ∀ e' ∈ es, e'.kind = .step → e'.label ≠ e.label)
    (hname : name ∈ e.node.usedNames ++ e.node.assigned?.toList) :
    (b.executed e top rest).tree.resolve e.label name = b.lookup name := by
  have hnone : b.tree.resolve e.label name = none := by
    apply Option.eq_none_iff_forall_ne_some.mpr
    intro x hx
    obtain ⟨e', he', hs, hl⟩ := h.fresh e.label name x hx
    exact hne e' he' hs hl
  rw [resolve_executed, if_pos ⟨rfl, hname⟩, hnone, Option.or_none]

lemma useRecords_executed {e' : Event} (hl : e'.kind = .step → e'.label ≠ e.label) :
    (b.executed e top rest).tree.useRecords e' = b.tree.useRecords e' := by
  unfold ScopeTree.useRecords
  split
  · rename_i hs
    simp only [resolve_executed_of_ne (hl hs)]
  · rfl

lemma defRecords_executed {e' : Event} (hl : e'.kind = .step → e'.label ≠ e.label) :
    (b.executed e top rest).tree.defRecords e' = b.tree.defRecords e' := by
  unfold ScopeTree.defRecords
  split
  · rename_i hs
    simp only [resolve_executed_of_ne (hl hs), declaredBy_executed_of_ne (hl hs)]
  · rfl

/-- The names of a node are resolved where it stands. -/
lemma step (h : Resolved es b) (hp : Placed es b) (he : e.kind = .step) (hb : b.stack = top :: rest)
    (hr : b.Reads e (b.executed e top rest)) (hn : Numbered (es ++ [e])) :
    Resolved (es ++ [e]) (b.executed e top rest) := by
  have hpos := hn.of_append_singleton.2
  have hne : ∀ e' ∈ es, e'.kind = .step → e'.label ≠ e.label :=
    fun e' he' hs => hn.label_ne (by simp [he]) e' he' (by simp [hs])
  constructor
  · intro e' he' hs name hname x
    rcases mem_append.mp he' with he' | he'
    · rw [resolve_executed_of_ne (hne e' he' hs), h.meanings e' he' hs name hname x]
      simp only [Means, sees_of_reads hp hr (hpos e' he')]
    · obtain rfl := mem_singleton.mp he'
      rw [h.resolve_executed_self hne hname, lookup_eq_some_iff hp hpos]
      simp only [Means, sees_executed hb]
  · intro e' he' hs name hname hnot x
    rcases mem_append.mp he' with he' | he'
    · rw [resolve_executed_of_ne (hne e' he' hs)] at hnot
      rw [sees_of_reads hp hr (hpos e' he')]
      exact h.missing e' he' hs name hname hnot x
    · obtain rfl := mem_singleton.mp he'
      rw [h.resolve_executed_self hne hname] at hnot
      rw [sees_executed hb]
      exact not_sees_of_lookup hp hpos hnot x
  · intro label name x hx
    by_cases hl : label = e.label
    · exact ⟨e, by simp, he, hl.symm⟩
    · rw [resolve_executed_of_ne hl] at hx
      exact exists_mem_concat (h.fresh label name x hx)
  · have hnew : (b.executed e top rest).tree.useRecords e = b.found e.pos e.node.usedNames := by
      rw [ScopeTree.useRecords, if_pos he]
      apply filterMap_congr
      intro name hname
      rw [h.resolve_executed_self hne (mem_append_left _ hname)]
    rw [flatMap_append, flatMap_congr fun e' he' => useRecords_executed (hne e' he'),
      flatMap_singleton, hnew, ← h.uses]
    rfl
  · have hnew : (b.executed e top rest).tree.defRecords e =
        b.found e.pos e.node.assigned?.toList ++
          (b.introduced e top).map fun x => (x.index, e.pos) := by
      rw [ScopeTree.defRecords, if_pos he, declaredBy_executed_self hp hne]
      congr 1
      apply filterMap_congr
      intro name hname
      rw [h.resolve_executed_self hne (mem_append_right _ hname)]
    rw [flatMap_append, flatMap_congr fun e' he' => defRecords_executed (hne e' he'),
      flatMap_singleton, hnew, ← h.defs, ← append_assoc]
    rfl

end

/-- Reading an event keeps what is known of names. -/
theorem read (h : Resolved es b) (hp : Placed es b) (hr : b.Reads e b')
    (hn : Numbered (es ++ [e])) : Resolved (es ++ [e]) b' := by
  have hpos := hn.of_append_singleton.2
  cases id hr with
  | enter he | exit he hb hl => exact h.of_same hp hr hpos (by simp [he]) rfl rfl rfl rfl
  | step he hb hk hbl => exact h.step hp he hb hr hn

end Resolved

end ScopeBuilder

/-! ### Finished trees -/

namespace ScopeTree

variable {f : Function} {t : ScopeTree} {e : Event} {es : List Event} {p : Int} {name : String}
  {x y : Binding}

/-- What is known of the tree of a stream. -/
structure Exact (es : List Event) (t : ScopeTree) : Prop where
  events : t.events = es
  numbered : Numbered es
  position : ∀ e ∈ es, e.kind = .step → t.positions.get? e.label = some e.pos
  opened : ∀ e ∈ es, e.kind = .enter → ∃ id s, t.opened.get? e.label = some id ∧
    t.scopes[id]? = some s ∧ s.start = e.pos
  declares : ∀ e ∈ es, e.kind = .step → ∃ scope index,
    t.declaredBy e.label = ScopeBuilder.numbered scope e.label e.pos index e.node.declarations
  declared : ∀ x ∈ t.bindings, ∃ e ∈ es, e.kind = .step ∧ e.pos = x.declaredAt ∧ e.label = x.label
  inside : ∀ x ∈ t.bindings, t.OpenAt x.scope x.declaredAt
  indexed : ∀ (i : Nat) (x : Binding), t.bindings[i]? = some x → x.index = i
  meanings : ∀ e ∈ es, e.kind = .step → ∀ name ∈ e.node.usedNames ++ e.node.assigned?.toList, ∀ x,
    t.resolve e.label name = some x ↔
      t.Visible e.pos name x ∧ ∀ y, t.Visible e.pos name y → y.index ≤ x.index
  missing : ∀ e ∈ es, e.kind = .step → ∀ name ∈ e.node.usedNames ++ e.node.assigned?.toList,
    t.resolve e.label name = none → ∀ x, ¬t.Visible e.pos name x
  uses : t.uses = es.flatMap t.useRecords
  defs : t.defs = es.flatMap t.defRecords

/-- The tree of a function is exact. -/
theorem exact_of_ofFunction (h : ofFunction f = .ok t) : Exact f.events t := by
  obtain ⟨-, -, b, -, -, hread, hstack, rfl⟩ := ofEvents_eq_ok_iff.mp (ofEvents_of_ofFunction h)
  have hkeep : ∀ {e b b'}, ScopeBuilder.Reads b e b' → b'.tree.events = b.tree.events := by
    intro e b b' hr
    cases hr <;> rfl
  have hknown : b.Placed f.events ∧ b.Recorded f.events ∧ b.Resolved f.events ∧
      b.tree.events = f.events := by
    apply ScopeBuilder.read_induction (P := fun es b =>
      b.Placed es ∧ b.Recorded es ∧ b.Resolved es ∧ b.tree.events = f.events) _ _
        f.numbered_events hread
    · exact ⟨.empty _ rfl rfl, .empty _, .empty _ rfl rfl rfl, rfl⟩
    · rintro es e m m' hn ⟨hp, hrec, hres, hev⟩ hr
      exact ⟨hp.read hr hn.of_append_singleton.2, hrec.read hp hr hn, hres.read hp hr hn,
        (hkeep hr).trans hev⟩
  obtain ⟨hp, hrec, hres, hev⟩ := hknown
  -- All scopes have been left, so that open up to here means open in the tree.
  have hopen : ∀ id p, b.OpenAt id p ↔ b.tree.OpenAt id p := by
    simp [ScopeBuilder.OpenAt, OpenAt, ScopeBuilder.ids, hstack]
  have hsees : ∀ p name x, b.Sees p name x ↔ b.tree.Visible p name x := by
    intro p name x
    constructor
    · rintro ⟨hm, hn, hl, ho⟩
      exact ⟨hm, hn, hl, (hopen _ _).mp ho⟩
    · rintro ⟨hm, hn, hl, ho⟩
      exact ⟨hm, hn, hl, (hopen _ _).mpr ho⟩
  refine ⟨hev, f.numbered_events, hrec.position, hrec.opened, hrec.declares, hp.declared, ?_,
    hp.indexed,
    ?_, ?_, hres.uses, hres.defs⟩
  · exact fun x hx => (hopen _ _).mp (hp.inside x hx)
  · simpa only [ScopeBuilder.Means, hsees] using hres.meanings
  · simpa only [hsees] using hres.missing

namespace Exact

variable (h : Exact es t)

include h

lemma eq_of_index (hx : x ∈ t.bindings) (hy : y ∈ t.bindings) (hxy : x.index = y.index) :
    x = y := by
  obtain ⟨i, hi, rfl⟩ := getElem_of_mem hx
  obtain ⟨j, hj, rfl⟩ := getElem_of_mem hy
  rw [h.indexed i _ (getElem?_eq_getElem hi),
    h.indexed j _ (getElem?_eq_getElem hj)] at hxy
  subst hxy
  rfl

lemma visible_of_resolve (he : e ∈ es) (hs : e.kind = .step)
    (hname : name ∈ e.node.usedNames ++ e.node.assigned?.toList)
    (hx : t.resolve e.label name = some x) : t.Visible e.pos name x :=
  ((h.meanings e he hs name hname x).mp hx).1

lemma resolve_eq_none_iff (he : e ∈ es) (hs : e.kind = .step)
    (hname : name ∈ e.node.usedNames ++ e.node.assigned?.toList) :
    t.resolve e.label name = none ↔ ∀ x, ¬t.Visible e.pos name x := by
  refine ⟨h.missing e he hs name hname, fun hnot => ?_⟩
  apply Option.eq_none_iff_forall_ne_some.mpr
  intro x hx
  exact hnot x (h.visible_of_resolve he hs hname hx)

/-! ### Records -/

/-- The records of a binding are those of the names that mean it. -/
lemma map_filter_records (hx : x ∈ t.bindings) (he : e ∈ es) (hs : e.kind = .step)
    {names : List String}
    (hn : ∀ name ∈ names, name ∈ e.node.usedNames ++ e.node.assigned?.toList) :
    ((names.filterMap fun name => (t.resolve e.label name).map fun y => (y.index, e.pos)).filter
      (·.1 = x.index)).map (·.2) =
      (names.filter fun name => t.resolve e.label name = some x).map fun _ => e.pos := by
  induction names with
  | nil => rfl
  | cons name names ih =>
    have ih := ih fun n hn' => hn n (mem_cons_of_mem _ hn')
    cases hr : t.resolve e.label name with
    | none => simpa [hr] using ih
    | some y =>
      have hy := (h.visible_of_resolve he hs (hn name mem_cons_self) hr).mem
      by_cases hyx : y = x
      · subst hyx
        simpa [hr] using ih
      · have hindex : y.index ≠ x.index := fun hxy => hyx (h.eq_of_index hy hx hxy)
        simpa [hr, hyx, hindex] using ih

lemma map_filter_useRecords (hx : x ∈ t.bindings) (he : e ∈ es) :
    ((t.useRecords e).filter (·.1 = x.index)).map (·.2) = t.usedAt x e := by
  unfold useRecords usedAt
  split
  · rename_i hs
    exact h.map_filter_records hx he hs fun name hname => mem_append_left _ hname
  · rfl

/-- A binding is the only one with its index. -/
lemma filter_bindings_index (hx : x ∈ t.bindings) :
    t.bindings.filter (·.index = x.index) = [x] := by
  have hasc : t.bindings.Pairwise fun y z => y.index < z.index := by
    rw [pairwise_iff_getElem]
    intro i j hi hj hij
    rwa [h.indexed i _ (getElem?_eq_getElem hi), h.indexed j _ (getElem?_eq_getElem hj)]
  obtain ⟨l₁, l₂, hl⟩ := append_of_mem hx
  rw [hl, pairwise_append, pairwise_cons] at hasc
  obtain ⟨-, ⟨hafter, -⟩, hbefore⟩ := hasc
  have h₁ : l₁.filter (·.index = x.index) = [] := by
    apply filter_eq_nil_iff.mpr
    intro y hy
    have := hbefore y hy x mem_cons_self
    simpa using this.ne
  have h₂ : l₂.filter (·.index = x.index) = [] := by
    apply filter_eq_nil_iff.mpr
    intro y hy
    simpa using (hafter y hy).ne'
  rw [hl, filter_append, filter_cons_of_pos (by simp), h₁, h₂, nil_append]

/-- A binding is defined where it is assigned and where it is declared. -/
lemma map_filter_defRecords (hx : x ∈ t.bindings) (he : e ∈ es) :
    ((t.defRecords e).filter (·.1 = x.index)).map (·.2) =
      (if t.assignedAt x e then [e.pos] else []) ++
        if e.kind = .step ∧ e.label = x.label then [e.pos] else [] := by
  unfold defRecords assignedAt
  by_cases hs : e.kind = .step
  · have hdeclared : (((t.declaredBy e.label).map fun y => (y.index, e.pos)).filter
        (·.1 = x.index)).map (·.2) = if e.label = x.label then [e.pos] else [] := by
      rw [filter_map, map_map, declaredBy, filter_filter]
      simp only [Function.comp_def, Bool.and_comm]
      rw [← filter_filter, h.filter_bindings_index hx]
      by_cases hl : e.label = x.label
      · simp [hl]
      · simp [hl, Ne.symm hl]
    rw [if_pos hs, filter_append, map_append, hdeclared,
      h.map_filter_records hx he hs fun name hname => mem_append_right _ hname]
    congr 1
    · cases hn : e.node.assigned? with
      | none => simp
      | some name => by_cases hr : t.resolve e.label name = some x <;> simp [hs, hr]
    · simp [hs]
  · simp [hs]

/-! ### Uses and definitions -/

/-- A binding is used only where it is visible. -/
lemma visible_of_usedAt (he : e ∈ es) (hp : p ∈ t.usedAt x e) :
    p = e.pos ∧ ∃ name, t.Visible p name x := by
  unfold usedAt at hp
  split at hp
  · rename_i hs
    obtain ⟨name, hname, rfl⟩ := mem_map.mp hp
    obtain ⟨hname, hr⟩ := mem_filter.mp hname
    exact ⟨rfl, name, h.visible_of_resolve he hs (mem_append_left _ hname)
      (of_decide_eq_true hr)⟩
  · cases hp

lemma visible_of_assignedAt (he : e ∈ es) (ha : t.assignedAt x e = true) :
    ∃ name, t.Visible e.pos name x := by
  rw [assignedAt, Bool.and_eq_true, decide_eq_true_eq, Option.any_eq_true] at ha
  obtain ⟨hs, name, hname, hr⟩ := ha
  refine ⟨name, h.visible_of_resolve he hs ?_ (of_decide_eq_true hr)⟩
  exact mem_append_right _ (Option.mem_toList.mpr hname)

lemma pairwise_usedAt : (es.flatMap (t.usedAt x)).Pairwise (· ≤ ·) := by
  rw [pairwise_flatMap]
  constructor
  · intro e he
    apply pairwise_of_forall_mem_list
    intro p hp q hq
    rw [(h.visible_of_usedAt he hp).1, (h.visible_of_usedAt he hq).1]
  · apply h.numbered.ascending.imp_of_mem
    intro e e' he he' hlt p hp q hq
    rw [(h.visible_of_usedAt he hp).1, (h.visible_of_usedAt he' hq).1]
    exact hlt.le

/-- The uses of a binding are listed in the order of the text. -/
theorem usesOf_eq (hx : x ∈ t.bindings) : t.usesOf x = es.flatMap (t.usedAt x) := by
  have hflat : ((es.flatMap t.useRecords).filter (·.1 = x.index)).map (·.2) =
      es.flatMap (t.usedAt x) := by
    rw [filter_flatMap, map_flatMap]
    exact flatMap_congr fun e he => h.map_filter_useRecords hx he
  rw [usesOf, positionsOf, h.uses, hflat]
  apply stableSort_of_pairwise
  simpa only [decide_eq_true_eq] using h.pairwise_usedAt

lemma pairwise_assignedAt :
    (x.declaredAt :: (es.filter (t.assignedAt x)).map (·.pos)).Pairwise (· < ·) := by
  rw [pairwise_cons, pairwise_map]
  constructor
  · intro p hp
    obtain ⟨e, he, rfl⟩ := mem_map.mp hp
    obtain ⟨he, ha⟩ := mem_filter.mp he
    obtain ⟨name, hv⟩ := h.visible_of_assignedAt he ha
    exact hv.earlier
  · exact h.numbered.ascending.filter _

/-- The definitions of a binding are its declaration and the assignments to names that mean it. -/
theorem defsOf_eq (hx : x ∈ t.bindings) :
    t.defsOf x = x.declaredAt :: (es.filter (t.assignedAt x)).map (·.pos) := by
  obtain ⟨d, hd, hds, hdpos, hdl⟩ := h.declared x hx
  have hnot : ∀ e ∈ es, e.pos ≤ d.pos → t.assignedAt x e = false := by
    intro e he hle
    apply Bool.eq_false_iff.mpr
    intro ha
    obtain ⟨name, hv⟩ := h.visible_of_assignedAt he ha
    have := hv.earlier
    omega
  have hlabel : ∀ e ∈ es, e.kind = .step → e.label = x.label → e.pos = d.pos := by
    intro e he hs hl
    rw [← h.numbered.labelled e he (by simp [hs]), ← h.numbered.labelled d hd (by simp [hds]),
      hl, hdl]
  -- The stream is split at the declaration: there is no definition before it.
  obtain ⟨l₁, l₂, hes⟩ := append_of_mem hd
  have hasc := h.numbered.ascending
  rw [hes, pairwise_append, pairwise_cons] at hasc
  obtain ⟨-, ⟨hafter, -⟩, hbefore⟩ := hasc
  have h₁ : ∀ e ∈ l₁, e ∈ es ∧ e.pos < d.pos := fun e he =>
    ⟨by rw [hes]; simp [he], hbefore e he d mem_cons_self⟩
  have h₂ : ∀ e ∈ l₂, e ∈ es ∧ d.pos < e.pos := fun e he => ⟨by rw [hes]; simp [he], hafter e he⟩
  have hfilter : es.filter (t.assignedAt x) = l₂.filter (t.assignedAt x) := by
    rw [hes, filter_append, filter_cons_of_neg (by simp [hnot d hd (le_refl _)]),
      filter_eq_nil_iff.mpr, nil_append]
    intro e he
    simp [hnot e (h₁ e he).1 (h₁ e he).2.le]
  have hflat : ((es.flatMap t.defRecords).filter (·.1 = x.index)).map (·.2) =
      x.declaredAt :: (es.filter (t.assignedAt x)).map (·.pos) := by
    have hrec₁ : ∀ e ∈ l₁, ((t.defRecords e).filter (·.1 = x.index)).map (·.2) = [] := by
      intro e he
      obtain ⟨hmem, hlt⟩ := h₁ e he
      have hne : ¬(e.kind = .step ∧ e.label = x.label) := fun ⟨hs, hl⟩ => by
        have := hlabel e hmem hs hl
        omega
      rw [h.map_filter_defRecords hx hmem, hnot e hmem hlt.le, if_neg hne]
      rfl
    have hrec : ((t.defRecords d).filter (·.1 = x.index)).map (·.2) = [x.declaredAt] := by
      have hyes : d.kind = .step ∧ d.label = x.label := ⟨hds, hdl⟩
      rw [h.map_filter_defRecords hx hd, hnot d hd (le_refl _), if_pos hyes, hdpos]
      rfl
    have hrec₂ : ∀ e ∈ l₂, ((t.defRecords e).filter (·.1 = x.index)).map (·.2) =
        ((Option.guard (t.assignedAt x) e).map (·.pos)).toList := by
      intro e he
      obtain ⟨hmem, hlt⟩ := h₂ e he
      have hne : ¬(e.kind = .step ∧ e.label = x.label) := fun ⟨hs, hl⟩ => by
        have := hlabel e hmem hs hl
        omega
      rw [h.map_filter_defRecords hx hmem, if_neg hne, append_nil]
      cases ha : t.assignedAt x e <;> simp [Option.guard, ha]
    rw [filter_flatMap, map_flatMap, hfilter, hes, flatMap_append, flatMap_cons,
      flatMap_eq_nil_iff.mpr hrec₁, hrec, flatMap_congr hrec₂, nil_append,
      ← filterMap_eq_flatMap_toList, ← filterMap_eq_filter, map_filterMap]
    rfl
  rw [defsOf, positionsOf, h.defs, hflat]
  apply stableSort_of_pairwise
  simpa only [decide_eq_true_eq] using h.pairwise_assignedAt.imp le_of_lt

/-- A binding is used and defined only while its scope is open. -/
theorem openAt_of_mem (hx : x ∈ t.bindings) (hp : p ∈ t.usesOf x ++ t.defsOf x) :
    t.OpenAt x.scope p := by
  rw [h.usesOf_eq hx, h.defsOf_eq hx, mem_append, mem_flatMap, mem_cons,
    mem_map] at hp
  rcases hp with ⟨e, he, hp⟩ | rfl | ⟨e, he, rfl⟩
  · obtain ⟨-, name, hv⟩ := h.visible_of_usedAt he hp
    exact hv.inside
  · exact h.inside x hx
  · obtain ⟨he, ha⟩ := mem_filter.mp he
    obtain ⟨name, hv⟩ := h.visible_of_assignedAt he ha
    exact hv.inside

end Exact

/-- Names mean the latest visible declaration, and the uses and definitions of a binding are those
of the names that mean it. -/
theorem resolution_exact (h : ofFunction f = .ok t) :
    (∀ e ∈ f.events, e.kind = .step →
      (t.declaredBy e.label).map (fun x => (x.name, x.declaredAt)) =
        e.node.declarations.map fun d => (d.name, e.pos)) ∧
    (∀ e ∈ f.events, e.kind = .step → ∀ name ∈ e.node.expressions.flatMap Expr.vars,
      (∀ x, t.resolve e.label name = some x ↔
        t.Visible e.pos name x ∧ ∀ y, t.Visible e.pos name y → y.index ≤ x.index) ∧
      (t.resolve e.label name = none ↔ ∀ x, ¬t.Visible e.pos name x)) ∧
    ∀ x ∈ t.bindings,
      (t.usesOf x = f.events.flatMap (t.usedAt x) ∧ (t.usesOf x).Pairwise (· ≤ ·)) ∧
      (t.defsOf x = x.declaredAt :: (f.events.filter (t.assignedAt x)).map (·.pos) ∧
        (t.defsOf x).Pairwise (· < ·)) ∧
      ∀ p ∈ t.usesOf x ++ t.defsOf x, t.OpenAt x.scope p := by
  have hexact := exact_of_ofFunction h
  refine ⟨fun e he hs => ?_, fun e he hs name hname => ?_, fun x hx => ?_⟩
  · obtain ⟨scope, index, hd⟩ := hexact.declares e he hs
    rw [hd]
    exact ScopeBuilder.map_numbered ..
  · rw [← Node.mem_names_iff] at hname
    exact ⟨hexact.meanings e he hs name hname, hexact.resolve_eq_none_iff he hs hname⟩
  · have huses := hexact.usesOf_eq hx
    have hdefs := hexact.defsOf_eq hx
    refine ⟨⟨huses, ?_⟩, ⟨hdefs, ?_⟩, fun p hp => hexact.openAt_of_mem hx hp⟩
    · rw [huses]
      exact hexact.pairwise_usedAt
    · rw [hdefs]
      exact hexact.pairwise_assignedAt

end ScopeTree

/-- A function in which the declaration of a block hides the parameter. -/
def Function.shadowing : Function where
  name := "shadowing"
  params := [⟨"x", none, false, .unknown⟩]
  body := .mk [
    .block (.mk [
      .declare "x" none (.var "x" .unknown) true .unknown,
      .assign (.var "x" .unknown) (.binary .add (.var "x" .unknown) (.var "x" .unknown) .unknown)
        .unknown] .unknown),
    .evaluate (.var "x" .unknown) .unknown,
    .evaluate (.var "y" .unknown) .unknown] .unknown

namespace ScopeTree

/-- The block declares with the parameter, uses its own variable twice while it assigns it, and
gives the name back; the other name means nothing. -/
theorem resolution_exact_shadowing : ∃ t, ofFunction .shadowing = .ok t ∧
    (t.bindings.map (·.index) = [0, 1] ∧
      [3, 4, 6].map (fun label => (t.resolve label "x").map (·.index)) = [some 0, some 1, some 0]) ∧
    (t.bindings.map t.usesOf = [[3, 6], [4, 4]] ∧ t.bindings.map t.defsOf = [[1], [3, 4]]) ∧
    (∀ x, ¬t.Visible 7 "y" x) ∧
    ∀ x ∈ t.bindings, ∀ p ∈ t.usesOf x ++ t.defsOf x, t.OpenAt x.scope p := by
  have hok : (ofFunction .shadowing).toOption.any (fun t => decide (
      (t.bindings.map (·.index) = [0, 1] ∧
        [3, 4, 6].map (fun label => (t.resolve label "x").map (·.index)) = [some 0, some 1,
          some 0]) ∧
      (t.bindings.map t.usesOf = [[3, 6], [4, 4]] ∧ t.bindings.map t.defsOf = [[1], [3, 4]]) ∧
      t.resolve 7 "y" = none)) = true := by decide +kernel
  obtain ⟨t, ht, htest⟩ := Fault.exists_ok hok
  obtain ⟨hmean, hpos, hnone⟩ := of_decide_eq_true htest
  obtain ⟨-, hnames, hbindings⟩ := resolution_exact ht
  have hlast : ∃ e ∈ Function.shadowing.events, e.kind = .step ∧ e.label = 7 ∧ e.pos = 7 ∧
      "y" ∈ e.node.expressions.flatMap Expr.vars := by decide
  obtain ⟨e, he, hs, hl, hp, hy⟩ := hlast
  have hy := (hnames e he hs "y" hy).2
  rw [hl, hp] at hy
  exact ⟨t, ht, hmean, hpos, hy.mp hnone, fun x hx => (hbindings x hx).2.2⟩

end ScopeTree

end Ownership
