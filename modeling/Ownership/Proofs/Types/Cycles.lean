import Ownership.Proofs.Types.Memory
import Mathlib.Data.List.Chain

/-!
# Classification and the structure of types

The search for whether values of a type are copied keeps the types that it is inside of, remembers
answers and gives up at the first fault. What it finds depends on none of that: it reports a cycle
exactly if a type that contains itself by value can be reached, the names that it reports are those
of such a cycle, and otherwise the answer is that nothing that can be reached owns anything.
-/

namespace Ownership

open List

/-- Whether values of a type move because of its kind alone. -/
def Shape.isOwning : Shape → Bool
  | .owned | .box _ | .unknown => true
  | .ref _ mutable => mutable
  | .scalar | .struct _ | .variant _ => false

lemma TypeDef.isOwning_of_settled {d : TypeDef} {b : Bool} (h : d.copyRule = .settled b) :
    d.shape.isOwning = !b := by
  unfold copyRule at h
  split at h <;> simp_all [Shape.isOwning]

lemma TypeDef.isOwning_of_fields {d : TypeDef} {fields : List FieldDecl}
    (h : d.copyRule = .fields fields) : d.shape.isOwning = false := by
  unfold copyRule at h
  split at h <;> simp_all [Shape.isOwning]

namespace TypeTable

variable {t : TypeTable} {id i : TypeId} {b : Bool} {e : Fault} {path : List TypeId}

/-- Whether a value of one type is one of another or has one somewhere inside. -/
def Reaches (t : TypeTable) : TypeId → TypeId → Prop := Relation.ReflTransGen t.Contains

def nameOf? (t : TypeTable) (id : TypeId) : Option String := (t.get? id).map (·.name)

/-- Whether types contain one another by value in turn, from a type through others back to it. -/
def IsCycle (t : TypeTable) (id : TypeId) (others : List TypeId) : Prop :=
  (id :: (others ++ [id])).IsChain t.Contains

lemma IsCycle.contains_self {others : List TypeId} (h : t.IsCycle id others) :
    Relation.TransGen t.Contains id id := by
  have hchain : (id :: (others ++ [id])).IsChain (Relation.TransGen t.Contains) :=
    h.imp fun _ _ => .single
  exact hchain.rel_cons (mem_append_right _ mem_cons_self)

/-- In a table whose definitions speak of its own types only, a type has only such types inside. -/
lemma Reaches.isSome (h : t.Reaches id i) (hid : (t.get? id).isSome)
    (hdefs : ∀ d ∈ t.defs, ∀ m ∈ d.members, (t.get? m.type).isSome) : (t.get? i).isSome := by
  induction h with
  | refl => exact hid
  | tail _ hin _ =>
    obtain ⟨d, hd, m, hm, rfl⟩ := hin
    unfold get? at hd
    split at hd
    · exact hdefs d (mem_of_getElem? hd) m hm
    · cases hd

/-! ### Answers -/

lemma Settles.of_reaches (h : t.Settles id b) (hi : t.Reaches id i) : ∃ c, t.Settles i c := by
  induction hi with
  | refl => exact ⟨b, h⟩
  | tail _ hin ih =>
    obtain ⟨c, hc⟩ := ih
    obtain ⟨d, hd, m, hm, rfl⟩ := hin
    cases hc with
    | kind hd' hr =>
      obtain rfl := Option.mem_unique hd hd'
      rw [TypeDef.members_of_settled hr] at hm
      cases hm
    | fields hd' hr hf =>
      obtain rfl := Option.mem_unique hd hd'
      rw [TypeDef.members_of_copyRule hr] at hm
      exact ⟨_, hf m hm⟩

/-- A type is copied exactly if it reaches nothing that owns. -/
lemma Settles.eq_true_iff (h : t.Settles id b) :
    b = true ↔ ∀ i d, t.Reaches id i → t.get? i = some d → d.shape.isOwning = false := by
  induction h with
  | @kind id d b hd hr =>
    constructor
    · rintro rfl i e hi he
      rcases Relation.ReflTransGen.cases_head hi with rfl | ⟨j, ⟨d', hd', m, hm, -⟩, -⟩
      · obtain rfl := Option.mem_unique hd he
        exact TypeDef.isOwning_of_settled hr
      · obtain rfl := Option.mem_unique hd hd'
        rw [TypeDef.members_of_settled hr] at hm
        cases hm
    · intro hall
      have := hall id d .refl hd
      rw [TypeDef.isOwning_of_settled hr] at this
      simpa using this
  | @fields id d fields copy hd hr hf ih =>
    have hin : ∀ f ∈ fields, t.Contains id f.type := fun f hf =>
      ⟨d, hd, f, (TypeDef.members_of_copyRule hr).symm ▸ hf, rfl⟩
    rw [all_eq_true]
    constructor
    · intro hall i e hi he
      rcases Relation.ReflTransGen.cases_head hi with rfl | ⟨j, ⟨d', hd', m, hm, rfl⟩, hrest⟩
      · obtain rfl := Option.mem_unique hd he
        exact TypeDef.isOwning_of_fields hr
      · obtain rfl := Option.mem_unique hd hd'
        rw [TypeDef.members_of_copyRule hr] at hm
        exact (ih m hm).mp (hall m hm) i e hrest he
    · intro hall f hmem
      exact (ih f hmem).mpr fun i e hi he => hall i e (.head (hin f hmem) hi) he

/-! ### Faults -/

/-- Whether a fault is that a type inside a type is missing, or that one contains itself. -/
inductive Explains (t : TypeTable) (id : TypeId) : Fault → Prop
  | missing {i : TypeId} (hi : t.Reaches id i) (hn : t.get? i = none) :
      Explains t id (.missingType i)
  | cycle {i : TypeId} {others : List TypeId} {name : String} {names : List String}
      (hi : t.Reaches id i) (hcycle : t.IsCycle i others) (hname : t.nameOf? i = some name)
      (hnames : (i :: (others ++ [i])).map t.nameOf? = names.map some) :
      Explains t id (.cyclicType name names)

lemma Explains.of_contains {inner : TypeId} (h : t.Explains inner e) (hin : t.Contains id inner) :
    t.Explains id e := by
  cases h with
  | missing hi hn => exact .missing (.head hin hi) hn
  | cycle hi hcycle hname hnames => exact .cycle (.head hin hi) hcycle hname hnames

lemma error_of_allCopied {classify : TypeId → Except Fault Bool} {fields : List FieldDecl}
    (h : allCopied classify fields = .error e) : ∃ f ∈ fields, classify f.type = .error e := by
  induction fields with
  | nil => cases h
  | cons f rest ih =>
    rw [allCopied] at h
    cases hf : classify f.type with
    | error e' =>
      rw [hf] at h
      obtain rfl := Except.error.inj h
      exact ⟨f, mem_cons_self, hf⟩
    | ok b =>
      rw [hf] at h
      cases hrest : allCopied classify rest with
      | error e' =>
        rw [hrest] at h
        obtain rfl := Except.error.inj h
        obtain ⟨g, hg, hge⟩ := ih hrest
        exact ⟨g, mem_cons_of_mem _ hg, hge⟩
      | ok c =>
        rw [hrest] at h
        cases h

/-- A type that comes again below itself is on a cycle, and the names are those of the types from
its first occurrence on. -/
lemma explains_again {d : TypeDef} (hchain : (path ++ [id]).IsChain t.Contains)
    (hknown : ∀ i ∈ path, (t.get? i).isSome) (hid : id ∈ path) (hd : t.get? id = some d) :
    t.Explains id (.cyclicType d.name (t.cycleNames path id ++ [d.name])) := by
  obtain ⟨before, others, rfl, hbefore⟩ := eq_append_cons_of_mem hid
  have hfirst : ∀ i ∈ before, decide (i ≠ id) = true := fun i hi =>
    decide_eq_true fun h => hbefore (h ▸ hi)
  have hdrop : (before ++ id :: others).dropWhile (· ≠ id) = id :: others := by
    rw [dropWhile_append_of_pos hfirst, dropWhile_cons_of_neg (by simp)]
  have hname : t.nameOf? id = some d.name := by rw [nameOf?, hd, Option.map_some]
  have hnames : ∀ is : List TypeId, (∀ i ∈ is, (t.get? i).isSome) →
      is.map t.nameOf? = (is.filterMap t.nameOf?).map some := by
    intro is his
    induction is with
    | nil => rfl
    | cons i is ih =>
      obtain ⟨e, he⟩ := Option.isSome_iff_exists.mp (his i mem_cons_self)
      have hi : t.nameOf? i = some e.name := by rw [nameOf?, he, Option.map_some]
      rw [map_cons, filterMap_cons_some hi, map_cons, hi,
        ih fun j hj => his j (mem_cons_of_mem _ hj)]
  have hcycle : t.IsCycle id others := by
    rw [append_assoc] at hchain
    exact hchain.right_of_append
  have hknown : ∀ i ∈ id :: others, (t.get? i).isSome := fun i hi =>
    hknown i (mem_append_right _ hi)
  refine .cycle .refl hcycle hname ?_
  rw [← cons_append, map_append, hnames _ hknown, map_singleton, hname,
    map_append, map_singleton, cycleNames, hdrop]
  rfl

/-- A fault of the search has its reason in the structure of types. -/
lemma explains_classifyAnew {budget : Nat} (hchain : (path ++ [id]).IsChain t.Contains)
    (hknown : ∀ i ∈ path, (t.get? i).isSome) (h : t.classifyAnew budget path id = .error e) :
    t.Explains id e := by
  induction budget generalizing path id with
  | zero => cases h
  | succ budget ih =>
    rw [classifyAnew] at h
    split at h
    · rename_i hn
      obtain rfl := Except.error.inj h
      exact .missing .refl hn
    · rename_i d hd
      split at h
      · cases h
      · rename_i fields hr
        split at h
        · rename_i hid
          obtain rfl := Except.error.inj h
          exact explains_again hchain hknown hid hd
        · obtain ⟨f, hf, hfe⟩ := error_of_allCopied h
          have hin : t.Contains id f.type :=
            ⟨d, hd, f, (TypeDef.members_of_copyRule hr).symm ▸ hf, rfl⟩
          refine (ih ?_ ?_ hfe).of_contains hin
          · exact hchain.append (isChain_singleton _) (by simpa using hin)
          · intro i hi
            rcases mem_append.mp hi with hi | hi
            · exact hknown i hi
            · obtain rfl := mem_singleton.mp hi
              rw [hd]
              rfl

/-! ### The search and the structure -/

/-- Classification is structural, for every table that is made by operations and every type all of
whose parts are in the table: a cycle is reported exactly if a type that contains itself is inside,
the report names the types of such a cycle from the named type back to it, and otherwise the answer
is that values are copied exactly if nothing inside is an owned leaf, a box, of unknown type or an
exclusive reference. -/
theorem copies?_structural {steps : List Step} (ht : (TypeTable.empty.run steps).2 = t)
    (hknown : ∀ i, t.Reaches id i → (t.get? i).isSome) :
    ((∃ name names, t.copies? (some id) = .error (.cyclicType name names)) ↔
      ∃ i, t.Reaches id i ∧ Relation.TransGen t.Contains i i) ∧
    (∀ name names, t.copies? (some id) = .error (.cyclicType name names) →
      ∃ i others, t.Reaches id i ∧ t.IsCycle i others ∧ t.nameOf? i = some name ∧
        (i :: (others ++ [i])).map t.nameOf? = names.map some) ∧
    ((¬∃ i, t.Reaches id i ∧ Relation.TransGen t.Contains i i) →
      ∃ b, t.copies? (some id) = .ok b ∧
        (b = true ↔ ∀ i d, t.Reaches id i → t.get? i = some d → d.shape.isOwning = false)) := by
  have hfaithful : t.Faithful := ht ▸ Faithful.run (t := TypeTable.empty) (.empty _) steps
  have hexplained : ∀ e, t.copies? (some id) = .error e → t.Explains id e := by
    intro e he
    rw [hfaithful.copies?_eq] at he
    exact explains_classifyAnew (isChain_singleton _)
      (fun _ hi => absurd hi not_mem_nil) he
  have hsettled : ∀ b, t.copies? (some id) = .ok b → t.Settles id b := by
    intro b hb
    rw [hfaithful.copies?_eq] at hb
    exact settles_of_classifyAnew (.start t id) hb
  have hcycle : ∀ name names, t.copies? (some id) = .error (.cyclicType name names) →
      ∃ i others, t.Reaches id i ∧ t.IsCycle i others ∧ t.nameOf? i = some name ∧
        (i :: (others ++ [i])).map t.nameOf? = names.map some := by
    intro name names h
    cases hexplained _ h with
    | cycle hi hcycle hname hnames => exact ⟨_, _, hi, hcycle, hname, hnames⟩
  -- A fault is about a cycle, because no type is missing.
  have hcases : (∃ b, t.copies? (some id) = .ok b) ∨
      ∃ name names, t.copies? (some id) = .error (.cyclicType name names) := by
    cases h : t.copies? (some id) with
    | ok b => exact .inl ⟨b, rfl⟩
    | error e =>
      cases hexplained e h with
      | missing hi hn =>
        have := hknown _ hi
        rw [hn] at this
        cases this
      | cycle => exact .inr ⟨_, _, rfl⟩
  refine ⟨⟨?_, ?_⟩, hcycle, ?_⟩
  · rintro ⟨name, names, h⟩
    obtain ⟨i, others, hi, hself, -⟩ := hcycle name names h
    exact ⟨i, hi, hself.contains_self⟩
  · rintro ⟨i, hi, hself⟩
    rcases hcases with ⟨b, hb⟩ | h
    · obtain ⟨c, hc⟩ := (hsettled b hb).of_reaches hi
      exact absurd hself hc.not_contains_self
    · exact h
  · intro hno
    rcases hcases with ⟨b, hb⟩ | ⟨name, names, h⟩
    · exact ⟨b, hb, (hsettled b hb).eq_true_iff⟩
    · obtain ⟨i, others, hi, hself, -⟩ := hcycle name names h
      exact absurd ⟨i, hi, hself.contains_self⟩ hno

/-- A list of texts whose rest is not behind a pointer. -/
def Step.endlessList : List Step :=
  [.newOwned "String", .declareStruct "List" none, .declareVariant "Rest" none,
    .defineStruct ⟨2⟩ [⟨"head", ⟨1⟩⟩, ⟨"tail", ⟨3⟩⟩],
    .defineVariant ⟨3⟩ [⟨"Some", [⟨"0", ⟨2⟩⟩]⟩, ⟨"Nothing", []⟩]]

theorem exists_cycle_of_endlessList :
    (∀ i, (TypeTable.empty.run Step.endlessList).2.Reaches ⟨3⟩ i →
      ((TypeTable.empty.run Step.endlessList).2.get? i).isSome) ∧
    (TypeTable.empty.run Step.endlessList).2.copies? (some ⟨3⟩) =
      .error (.cyclicType "Rest" ["Rest", "List", "Rest"]) ∧
    ∃ i, (TypeTable.empty.run Step.endlessList).2.Reaches ⟨3⟩ i ∧
      Relation.TransGen (TypeTable.empty.run Step.endlessList).2.Contains i i := by
  have hknown : ∀ i, (TypeTable.empty.run Step.endlessList).2.Reaches ⟨3⟩ i →
      ((TypeTable.empty.run Step.endlessList).2.get? i).isSome := by
    intro i hi
    exact hi.isSome (by decide +kernel) (by decide +kernel)
  have hcyclic : (TypeTable.empty.run Step.endlessList).2.copies? (some ⟨3⟩) =
      .error (.cyclicType "Rest" ["Rest", "List", "Rest"]) := by decide +kernel
  exact ⟨hknown, hcyclic, (copies?_structural rfl hknown).1.mp ⟨_, _, hcyclic⟩⟩

end TypeTable

end Ownership
