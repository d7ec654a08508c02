import Mathlib.Data.Int.Interval
import Ownership.Proofs.Guise.Reports
import Ownership.Proofs.Sketch.Reordering

/-!
# Types with other numbers

Tables in which the same types are written have as many types, and a bijection of their numbers
relates the types that are written alike. With declarations in another order, a program is the same
program but for these numbers.
-/

namespace Ownership

namespace Sketch

open TypeTable (builtinTable)

variable {items is is₂ : List Item} {as as₂ : List Part} {t t₂ T T₂ : TypeTable} {o' o₂ o : Outline}
  {e : TypeExpr} {i j : TypeId} {name : String}

/-! ### Numbers that belong together -/

open Classical in
/-- The number that the second table has for a type of the first one. -/
noncomputable def partner (T T₂ : TypeTable) (i : TypeId) : TypeId :=
  if h : ∃ j, ∃ e : TypeExpr, e.idIn T = some i ∧ e.idIn T₂ = some j then h.choose else i

/-- Tables in which the same types are written. -/
structure Matches (items : List Item) (T T₂ : TypeTable) : Prop where
  serves : T.Serves items
  serves₂ : T₂.Serves items
  written : ∀ e : TypeExpr, (e.idIn T).isSome ↔ (e.idIn T₂).isSome

namespace Matches

variable (h : Matches items T T₂)

include h

lemma symm : Matches items T₂ T := ⟨h.serves₂, h.serves, fun e => (h.written e).symm⟩

lemma partner_eq (he : e.idIn T = some i) (he₂ : e.idIn T₂ = some j) : partner T T₂ i = j := by
  have hexists : ∃ j, ∃ e : TypeExpr, e.idIn T = some i ∧ e.idIn T₂ = some j := ⟨j, e, he, he₂⟩
  rw [partner, dif_pos hexists]
  obtain ⟨e', he', he₂'⟩ := hexists.choose_spec
  have hsame := TypeExpr.idIn_eq_of_bare_eq (h.serves.registered.bare_eq he' he) T₂
  exact Option.some.inj (he₂'.symm.trans (hsame.trans he₂))

lemma exists_written (hi : (T.get? i).isSome) : ∃ (e : TypeExpr) (j : TypeId),
    e.idIn T = some i ∧ e.idIn T₂ = some j := by
  obtain ⟨d, hd⟩ := Option.isSome_iff_exists.1 hi
  obtain ⟨e, he⟩ := h.serves.spelled hd
  obtain ⟨j, hj⟩ := Option.isSome_iff_exists.1 ((h.written e).1 (by rw [he]; rfl))
  exact ⟨e, j, he, hj⟩

lemma partner_partner (hi : (T.get? i).isSome) : partner T₂ T (partner T T₂ i) = i := by
  obtain ⟨e, j, he, hj⟩ := h.exists_written hi
  rw [h.partner_eq he hj, h.symm.partner_eq hj he]

lemma isSome_get?_partner (hi : (T.get? i).isSome) : (T₂.get? (partner T T₂ i)).isSome := by
  obtain ⟨e, j, he, hj⟩ := h.exists_written hi
  obtain ⟨d, hd⟩ := h.serves₂.exists_get? hj
  rw [h.partner_eq he hj, hd]
  rfl

lemma partner_of_get?_eq_none (hi : T.get? i = none) : partner T T₂ i = i := by
  refine dif_neg ?_
  rintro ⟨j, e, he, -⟩
  obtain ⟨d, hd⟩ := h.serves.exists_get? he
  rw [hi] at hd
  cases hd

lemma size_le : T.size ≤ T₂.size := by
  have hmaps :
      ∀ v ∈ Finset.Icc (1 : Int) T.size, (partner T T₂ ⟨v⟩).val ∈ Finset.Icc (1 : Int) T₂.size := by
    intro v hv
    rw [Finset.mem_Icc] at hv ⊢
    exact TypeTable.get?_isSome_iff.1 (h.isSome_get?_partner (TypeTable.get?_isSome_iff.2 hv))
  have hinj : Set.InjOn (fun v => (partner T T₂ ⟨v⟩).val) (Finset.Icc (1 : Int) T.size) := by
    intro v hv w hw hsame
    rw [Finset.mem_coe, Finset.mem_Icc] at hv hw
    have hpartner : partner T T₂ ⟨v⟩ = partner T T₂ ⟨w⟩ := congrArg TypeId.mk hsame
    have hback := congrArg (partner T₂ T) hpartner
    rw [h.partner_partner (TypeTable.get?_isSome_iff.2 hv),
      h.partner_partner (TypeTable.get?_isSome_iff.2 hw)] at hback
    exact congrArg TypeId.val hback
  simpa using Finset.card_le_card_of_injOn _ hmaps hinj

lemma size_eq : T₂.size = T.size := Nat.le_antisymm h.symm.size_le h.size_le

lemma get?_eq_none_iff : T₂.get? i = none ↔ T.get? i = none := by
  simp only [← Option.not_isSome_iff_eq_none, TypeTable.get?_isSome_iff, h.size_eq]

lemma partner_involutive (i : TypeId) : partner T₂ T (partner T T₂ i) = i := by
  cases hi : T.get? i with
  | some d => exact h.partner_partner (by rw [hi]; rfl)
  | none =>
    rw [h.partner_of_get?_eq_none hi, h.symm.partner_of_get?_eq_none (h.get?_eq_none_iff.2 hi)]

/-- Every number with the one that belongs to it. -/
noncomputable def perm : Equiv.Perm TypeId where
  toFun := partner T T₂
  invFun := partner T₂ T
  left_inv := h.partner_involutive
  right_inv := h.symm.partner_involutive

lemma aligns : Aligns h.perm T T₂ := fun _ _ _ => h.partner_eq

/-! ### Tables -/

lemma lookup_eq (name : String) : T₂.lookup name = (T.lookup name).map h.perm := by
  have hwritten := h.written (.named name .unknown)
  rw [TypeExpr.idIn, TypeExpr.idIn] at hwritten
  cases hi : T.lookup name with
  | none => simpa [hi] using hwritten
  | some i =>
    obtain ⟨j, hj⟩ := Option.isSome_iff_exists.1 (hwritten.1 (by rw [hi]; rfl))
    rw [hj, Option.map_some, h.aligns (.named name .unknown) i j hi hj]

variable (hnamed : ∀ {name i j}, T.lookup name = some i → T₂.lookup name = some j →
  T₂.get? j = (T.get? i).map (Guise.renumbering h.perm).typeDef)

include hnamed

lemma get?_eq_of_idIn (he : e.idIn T = some i) (he₂ : e.idIn T₂ = some j) :
    T₂.get? j = (T.get? i).map (Guise.renumbering h.perm).typeDef := by
  induction e using TypeExpr.wrap_induction generalizing i j with
  | named name loc => exact hnamed he he₂
  | wrap e w ih =>
    obtain ⟨k, hk, hi⟩ := TypeTable.idIn_wrap_eq_some_iff.1 he
    obtain ⟨k₂, hk₂, hj⟩ := TypeTable.idIn_wrap_eq_some_iff.1 he₂
    obtain ⟨d, hd, hi⟩ := h.serves.wrapped hi
    obtain ⟨d₂, hd₂, hj⟩ := h.serves₂.wrapped hj
    have hinner := ih hk hk₂
    rw [hd, hd₂, Option.map_some, Option.some.injEq] at hinner
    have hshape : (Guise.renumbering h.perm).shape (w.shape k) = w.shape k₂ := by
      rw [← h.aligns e k k₂ hk hk₂]
      cases w <;> rfl
    rw [hi, hj, Option.map_some, Guise.typeDef, hshape, hinner]
    rfl

lemma get?_eq (i : TypeId) :
    T₂.get? (h.perm i) = (T.get? i).map (Guise.renumbering h.perm).typeDef := by
  cases hi : T.get? i with
  | none =>
    rw [show h.perm i = i from h.partner_of_get?_eq_none hi, h.get?_eq_none_iff.2 hi]
    rfl
  | some d =>
    obtain ⟨e, j, he, hj⟩ := h.exists_written (i := i) (by rw [hi]; rfl)
    rw [h.aligns e i j he hj, h.get?_eq_of_idIn hnamed he hj, hi]

lemma onTable_warm : (Guise.renumbering h.perm).OnTable T.warm T₂.warm := by
  have hget : ∀ t : TypeTable, t.warm.get? = t.get? :=
    fun t => TypeTable.get?_congr (TypeTable.defs_warm t)
  have hlookup := fun t : TypeTable => (TypeTable.Alike.warm t).lookup
  have hsize := fun t : TypeTable => (TypeTable.Alike.warm t).size
  have hfaithful : ∀ {t : TypeTable}, t.Serves items → t.warm.Faithful := by
    intro t ht
    refine .warm ?_
    rw [TypeTable.Faithful, ht.copies]
    exact .empty t
  refine .of_faithful (fun i => ?_) (fun i hi => ?_) (fun name => ?_) ?_ (hfaithful h.serves)
    (hfaithful h.serves₂)
  · rw [hget, hget]
    exact h.get?_eq hnamed i
  · rw [hget] at hi
    exact h.partner_of_get?_eq_none hi
  · rw [hlookup, hlookup]
    exact h.lookup_eq name
  · rw [hsize, hsize, h.size_eq]

end Matches

/-! ### Programs -/

lemma typeDef_of_builtinTable (g : Guise) {d : TypeDef} (h : builtinTable.get? i = some d) :
    g.typeDef d = d := by
  have hmem : d ∈ builtinTable.defs := by
    unfold TypeTable.get? at h
    split at h
    · exact List.mem_of_getElem? h
    · cases h
  simp only [builtinTable, List.mem_cons, List.not_mem_nil, or_false] at hmem
  rcases hmem with rfl | rfl | rfl | rfl | rfl | rfl <;> rfl

lemma Run.nodup (run : Run items t o is as T o') (hnames : (typeNames is).Nodup) :
    (as.filterMap Part.typeName?).Nodup := by
  rw [run.typeNames_eq]
  exact (List.nodup_append.1 ((typeNames_perm is).nodup_iff.1 hnames)).2.1

lemma Run.get?_of_undefined (h : Declared items t) (run : Run items t o is as T o')
    (hname : name ∈ builtinNames) (has : name ∉ as.filterMap Part.typeName?) :
    ∃ id d, builtinTable.lookup name = some id ∧ builtinTable.get? id = some d ∧
      T.lookup name = some id ∧ T.get? id = some d := by
  have hknown : name ∈ typeNames [] := by simpa [typeNames, structNames, variantNames] using hname
  obtain ⟨id, d, hid, hd, -⟩ := TypeTable.serves_builtinTable.exists_named hknown
  exact ⟨id, d, hid, hd, run.grows.names (h.grows.names hid),
    run.kept has (h.grows.names hid) (h.keeps id d hd)⟩

lemma Part.defines?_inGuise (g : Guise) (a : Part) :
    (a.inGuise g).defines? = a.defines?.map (Prod.map id g.shape) := by
  cases a <;> rfl

lemma Run.get?_eq_of_lookup {ρ : Equiv.Perm TypeId} (h : Declared is t) (h₂ : Declared is t₂)
    (hnames : (typeNames is).Nodup) (hnames₂ : (typeNames is₂).Nodup) (hperm : is.Perm is₂)
    (run : Run is t {} is as T o') (run₂ : Run is t₂ {} is₂ as₂ T₂ o₂) (hρ : Aligns ρ T T₂)
    (hi : T.lookup name = some i) (hj : T₂.lookup name = some j) :
    T₂.get? j = (T.get? i).map (Guise.renumbering ρ).typeDef := by
  by_cases hdefined : name ∈ as.filterMap Part.typeName?
  · obtain ⟨a, ha, hname⟩ := List.mem_filterMap.1 hdefined
    obtain ⟨⟨name', shape⟩, hshape, rfl⟩ := Option.map_eq_some_iff.1 hname
    have hshape₂ := a.defines?_inGuise (.renumbering ρ)
    rw [hshape, Option.map_some] at hshape₂
    obtain ⟨i', hi', hd⟩ := run.defined (run.nodup hnames) ha hshape
    obtain ⟨j', hj', hd₂⟩ := run₂.defined (run₂.nodup hnames₂)
      (run.inGuise_mem run₂ hperm.subset hρ ha) hshape₂
    obtain rfl := Option.mem_unique hi hi'
    obtain rfl := Option.mem_unique hj hj'
    rw [hd, hd₂]
    rfl
  · have hdefined₂ : name ∉ as₂.filterMap Part.typeName? := by
      rwa [run₂.typeNames_eq, ← (hperm.filterMap _).mem_iff, ← run.typeNames_eq]
    have hbuiltin : name ∈ builtinNames := by
      have hknown : name ∈ typeNames is := (run.serves_end.known name).1 (by rw [hi]; rfl)
      rw [(typeNames_perm is).mem_iff, ← run.typeNames_eq, List.mem_append] at hknown
      exact hknown.resolve_right hdefined
    obtain ⟨k, d, hk, hd, hk', hd'⟩ := run.get?_of_undefined h hbuiltin hdefined
    obtain ⟨k₂, d₂, hk₂, hd₂, hk₂', hd₂'⟩ := run₂.get?_of_undefined h₂ hbuiltin hdefined₂
    obtain rfl := Option.mem_unique hk hk₂
    obtain rfl := Option.mem_unique hd hd₂
    obtain rfl := Option.mem_unique hi hk'
    obtain rfl := Option.mem_unique hj hk₂'
    rw [hd', hd₂', Option.map_some, typeDef_of_builtinTable _ hd]

lemma get?_foldl_signature (g : Guise) (sigs : List Signature) (callee : String) :
    ((sigs.map g.signature).foldl (fun r sig => r.insert sig.name sig)
      (.empty : Registry String Signature)).get? callee =
      ((sigs.foldl (fun r sig => r.insert sig.name sig)
        (.empty : Registry String Signature)).get? callee).map g.signature := by
  have hfold :
      ∀ r r₂ : Registry String Signature, r₂.get? callee = (r.get? callee).map g.signature →
      ((sigs.map g.signature).foldl (fun r sig => r.insert sig.name sig) r₂).get? callee =
        ((sigs.foldl (fun r sig => r.insert sig.name sig) r).get? callee).map g.signature := by
    induction sigs with
    | nil => exact fun r r₂ hr => hr
    | cons sig sigs ih =>
      intro r r₂ hr
      refine ih _ _ ?_
      rw [Registry.get?_insert, Registry.get?_insert, hr]
      exact (apply_ite (Option.map g.signature) (callee = sig.name) (some sig) (r.get? callee)).symm
  exact hfold _ _ rfl

/-- The order of declarations does not matter, but for functions and signatures. -/
theorem exists_build_of_perm {p : Program} (hperm : is.Perm is₂)
    (hfunctions : is.filter Item.isFunction = is₂.filter Item.isFunction)
    (hexterns : is.filter Item.isOutside = is₂.filter Item.isOutside) (hp : build is = .ok p) :
    ∃ p₂ ρ, build is₂ = .ok p₂ ∧ (Guise.renumbering ρ).OnProgram p.warm p₂.warm ∧
      p₂.functions = p.functions.map (Guise.renumbering ρ).function := by
  obtain ⟨t, o, T, hdeclare, htake, rfl⟩ := build_eq_ok_iff.1 hp
  obtain ⟨hdeclared, hnames⟩ := declared_builtinTable.declares (by decide) hdeclare
  rw [List.nil_append] at hdeclared hnames
  have hstructs : (structNames is).Perm (structNames is₂) := hperm.filterMap _
  have hvariants : (variantNames is).Perm (variantNames is₂) := hperm.filterMap _
  have hnames₂ : (typeNames is₂).Nodup :=
    (((List.Perm.refl builtinNames).append hstructs).append hvariants).nodup_iff.1 hnames
  obtain ⟨t₂, hdeclare₂⟩ := declared_builtinTable.exists_declares hnames₂
  have hdeclared₂ : Declared is t₂ :=
    (declared_builtinTable.declares (by decide) hdeclare₂).1.of_perm hstructs hvariants
  obtain ⟨as, run⟩ := exists_run_of_foldlM hdeclared.toServes (List.Subset.refl is) htake
  have htaken : ∀ i ∈ is₂, ∃ a, TakenAs is T i a := by
    intro i hi
    obtain ⟨a, -, ha⟩ := forall₂_exists_right run.taken (hperm.symm.subset hi)
    exact ⟨a, ha⟩
  obtain ⟨as₂, T₂, o₂, run₂⟩ := exists_run hdeclared₂.toServes hperm.symm.subset htaken {}
  have hmatches : Matches is T T₂ := ⟨run.serves_end, run₂.serves_end, fun e =>
    ⟨run.isSome_idIn hdeclared run₂ hperm.subset,
      run₂.isSome_idIn hdeclared₂ run hperm.symm.subset⟩⟩
  have hρ := hmatches.aligns
  have htypes := hmatches.onTable_warm
    (run.get?_eq_of_lookup hdeclared hdeclared₂ hnames hnames₂ hperm run₂ hρ)
  have hfunctions₂ : o₂.functions = o.functions.map (Guise.renumbering hmatches.perm).function := by
    rw [run.functions_eq, run₂.functions_eq]
    exact run.filterMap_eq run₂ hρ Item.isFunction Part.function? _ (fun h => (kind_of_take h).2.1)
      (fun a => by cases a <;> rfl) hfunctions
  have hexterns₂ : as₂.filterMap Part.outside? =
      (as.filterMap Part.outside?).map (Guise.renumbering hmatches.perm).signature :=
    run.filterMap_eq run₂ hρ Item.isOutside Part.outside? _ (fun h => (kind_of_take h).2.2)
      (fun a => by cases a <;> rfl) hexterns
  refine ⟨_, hmatches.perm, build_eq_ok_iff.2 ⟨t₂, o₂, T₂, hdeclare₂, run₂.foldlM_eq, rfl⟩,
    .of_functions htypes hfunctions₂ fun callee => ?_, hfunctions₂⟩
  rw [Program.warm, Program.warm, run.externs_eq, run₂.externs_eq, hexterns₂]
  exact get?_foldl_signature _ _ callee

end Sketch

end Ownership
