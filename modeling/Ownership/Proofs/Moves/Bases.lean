import Ownership.Proofs.Control.Frames
import Ownership.Proofs.Moves.Soundness

/-!
# What an event moves and fills

Every place that an expression asks for is based on the meaning of one of its variables. So a place
that an event tries to move or to fill is based on a binding that is alive there. What is moved
does not lie behind a reference.
-/

namespace Ownership

/-! ### Accesses -/

namespace Context

variable {c : Context} {e : Event} {s u : Session} {p : Place} {pos : Int}

lemma consumption_move {q : Place} (h : c.consumption q = .ok (.move p)) :
    q = p ∧ c.typing.refPrefix? p = .ok none := by
  rcases consumption_cases h with h | ⟨h, hnone⟩
  · cases h
  · obtain rfl := Access.move.inj h
    exact ⟨rfl, hnone⟩

lemma demanded_move {q : Place} {demand : Demand} (h : c.demanded q demand = .ok (.move p)) :
    q = p ∧ c.typing.refPrefix? p = .ok none := by
  rcases demanded_cases h with h | ⟨kind, h⟩ | ⟨h, hnone, -⟩
  · cases h
  · cases h
  · obtain rfl := Access.move.inj h
    exact ⟨rfl, hnone⟩

/-- What a request moves is based on a variable and does not lie behind a reference. -/
lemma Asks.move {rs : List Request} (h : c.Asks pos rs s (.move p) u)
    {meaning : String → Option Binding} {names : List String}
    (hrs : ∀ r ∈ rs, r.Based meaning names) :
    c.typing.refPrefix? p = .ok none ∧ ∃ name ∈ names, meaning name = some p.base := by
  induction rs generalizing s with
  | nil => exact h.elim
  | cons r rest ih =>
    rcases h with ⟨hr, -⟩ | ⟨k, -, h⟩
    · have hbased := hrs r List.mem_cons_self
      cases r with
      | fail fault => cases hr
      | place demand q span kept =>
        obtain ⟨rfl, hnone⟩ := demanded_move hr
        exact ⟨hnone, hbased⟩
    · exact ih h fun r hr => hrs r (List.mem_cons_of_mem _ hr)

lemma not_asks_write {rs : List Request} : ¬c.Asks pos rs s (.write p) u := by
  intro h
  induction rs generalizing s with
  | nil => exact h
  | cons r rest ih =>
    rcases h with ⟨hr, -⟩ | ⟨k, -, h⟩
    · cases r with
      | fail fault => cases hr
      | place demand q span kept => exact demanded_ne_write hr p rfl
    · exact ih h

/-- A place that an event tries to move does not lie behind a reference. -/
theorem Tries.move (h : c.Tries e s (.move p) u) :
    c.typing.refPrefix? p = .ok none ∧ c.Names e p := by
  cases h.trial with
  | @asked x _ _ hx hrs hasks =>
    obtain ⟨hnone, name, hname, hbase⟩ := hasks.move hrs
    exact ⟨hnone, .inl ⟨name, List.mem_flatMap.mpr ⟨x, hx, hname⟩, hbase⟩⟩
  | stored _ _ _ hstore _ =>
    rcases storage_cases hstore with ⟨r, hr⟩ | hr
    · cases hr
    · cases hr
  | inspected ha _ => cases ha
  | @header arm sel hn htries =>
    obtain ⟨q, types, takes, hq, -, -, ⟨-, hmove, -⟩ | ⟨-, -, hlend, -⟩⟩ := htries
    · obtain ⟨rfl, hnone⟩ := consumption_move hmove
      obtain ⟨hplace, -⟩ := Option.filter_eq_some_iff.mp hq
      exact ⟨hnone, .inr ⟨arm, sel, hn, Expr.exists_name_of_place? hplace⟩⟩
    · cases hlend

/-- A place that an event tries to fill is a target of the event. -/
theorem Tries.write (h : c.Tries e s (.write p) u) : c.Names e p := by
  cases h.trial with
  | asked _ _ hasks => exact (not_asks_write hasks).elim
  | @stored target value _ _ _ hn _ hplace hstore _ =>
    rcases storage_cases hstore with ⟨r, hr⟩ | hr
    · cases hr
    · obtain rfl := Access.write.inj hr
      obtain ⟨name, hname, hbase⟩ := Expr.exists_name_of_place? hplace
      refine .inl ⟨name, ?_, hbase⟩
      rw [hn]
      exact List.mem_flatMap.mpr ⟨target, by simp [Node.expressions, Stmt.expressions], hname⟩
  | inspected ha _ => cases ha
  | header _ htries =>
    obtain ⟨q, types, takes, -, -, -, ⟨-, hmove, -⟩ | ⟨-, -, hlend, -⟩⟩ := htries
    · rcases consumption_cases hmove with hr | ⟨hr, -⟩
      · cases hr
      · cases hr
    · cases hlend

/-- What an event names is alive there. -/
theorem Names.alive (h : c.Names e p) (hnests : c.tree.Nests c.function.events)
    (he : e ∈ c.function.skeleton.events) (hk : e.kind = .step) : c.tree.Alive e.pos p.base := by
  have hvisible : ∀ {d : Event} {name : String}, d ∈ c.function.events → d.kind = .step →
      name ∈ d.node.expressions.flatMap Expr.vars → c.meaning d.pos name = some p.base →
      c.tree.Alive d.pos p.base := by
    intro d name hd hdk hname hbase
    rw [meaning, ← hnests.numbered.labelled d hd (by simp [hdk])] at hbase
    exact .of_visible
      (hnests.visible_of_resolve hd hdk ((Node.mem_names_iff d.node name).mpr hname) hbase)
  rcases h with ⟨name, hname, hbase⟩ | ⟨a, sel, hn, name, hname, hbase⟩
  · exact hvisible (c.function.mem_events_of_skeleton he) hk hname hbase
  · obtain ⟨hi, hspans⟩ := c.function.spans_skeleton
    obtain ⟨d, hd, hdk, hsel, halive⟩ :=
      (Stmt.framed_skeletonAll none c.function.bodyStart c.function.body.stmts).exists_selection
        hnests
        hspans (fun e he => c.function.mem_events_of_skeleton he) (fun s hs => nomatch hs) he hk hn
    obtain ⟨hpos, arms, loc, hdn⟩ := Event.selection?_eq_some hsel
    rw [← hpos] at hbase
    refine halive _ (hvisible hd hdk ?_ hbase)
    rw [hdn]
    exact List.mem_flatMap.mpr ⟨sel.scrutinee, List.mem_cons_self, hname⟩

end Context

end Ownership
