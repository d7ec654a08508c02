import Ownership.Proofs.Sketch.Declaring
import Ownership.Proofs.Sketch.Parallel

/-!
# Declarations in another order

Declarations are taken one by one, at tables that know all their types. What a declaration is taken
as does not depend on which of these tables it is taken at, but for the numbers of types, so
declarations that can be taken in one order can be taken in any other order.
-/

namespace Ownership.Sketch

open List

open TypeTable (builtinTable)
open Build

variable {items is is₂ : List Item} {i : Item} {as as₂ : List Part} {a a₂ : Part}
  {t t' t₂ T T₂ : TypeTable} {o o' o₂ : Outline} {name : String} {shape : Shape}
  {ρ : Equiv.Perm TypeId} {e : TypeExpr} {α β : Type}

/-! ### One declaration -/

namespace Part

/-- The type that a declaration defines, with its shape. -/
def defines? : Part → Option (String × Shape)
  | struct name fields _ => some (name, .struct fields)
  | variant name arms _ => some (name, .variant arms)
  | outside _ | function _ => none

/-- The name of the type that a declaration defines. -/
def typeName? (a : Part) : Option String := a.defines?.map Prod.fst

def function? : Part → Option Function
  | function f => some f
  | _ => none

def outside? : Part → Option Signature
  | outside sig => some sig
  | _ => none

/-- What is known beside the types after a declaration. -/
def outline (o : Outline) : Part → Outline
  | struct .. | variant .. => o
  | outside sig => { o with externs := o.externs.insert sig.name sig }
  | function f => { o with functions := o.functions ++ [f] }

end Part

def Item.isFunction : Item → Bool
  | function _ => true
  | _ => false

def Item.isOutside : Item → Bool
  | outside .. => true
  | _ => false

lemma kind_of_take (h : i.take t = .ok (a, t')) :
    a.typeName? = i.typeName? ∧ a.function?.isSome = i.isFunction ∧
      a.outside?.isSome = i.isOutside := by
  cases i <;>
  · obtain ⟨r, u, -, hpure⟩ := exists_of_bind h
    cases hpure
    exact ⟨rfl, rfl, rfl⟩

variable (ht : t.Serves items)

include ht

lemma advances_of_take (h : i.take t = .ok (a, t')) :
    t'.Serves items ∧ t.Grows t' ∧ t.Keeps t' := by
  obtain ⟨a₂, t₂, _, hadvances, _⟩ := follows_take i t t ht ht a t' h
  exact ⟨hadvances.serves, hadvances.grows, hadvances.keeps⟩

/-- What a declaration says is put where it belongs, and nothing else changes. -/
structure Records (items : List Item) (a : Part) (t t' : TypeTable) : Prop where
  serves : t'.Serves items
  grows : t.Grows t'
  idIn : ∀ e : TypeExpr, e.idIn t' = e.idIn t
  record : ∀ o, a.record o t = .ok (a.outline o, t')
  defined : ∀ {name shape}, a.defines? = some (name, shape) →
    ∃ id, t'.lookup name = some id ∧ t'.get? id = some ⟨name, shape⟩
  kept : ∀ {name id}, a.typeName? ≠ some name → t.lookup name = some id → t'.get? id = t.get? id

lemma Records.of_shapes (hdefines : a.defines? = some (name, shape))
    (h : t.Shapes items t' name shape)
    (hrecord : ∀ o, a.record o t = .ok (a.outline o, t')) : Records items a t t' := by
  obtain ⟨id, hid, hd, hothers⟩ := h.shaped
  refine ⟨h.serves, h.grows, h.idIn, hrecord, fun {name' shape'} hdefines' => ?_,
    fun {name' id'} hother hid' => ?_⟩
  · obtain ⟨rfl, rfl⟩ := Prod.mk.inj (Option.mem_unique hdefines hdefines')
    exact ⟨id, h.grows.names hid, hd⟩
  · -- Two names with one number are one name.
    refine hothers id' fun hsame => hother ?_
    obtain ⟨d, hd, hnamed⟩ := ht.named hid
    obtain ⟨d', hd', hnamed'⟩ := ht.named hid'
    rw [hsame, hd] at hd'
    cases hd'
    rw [Part.typeName?, hdefines, ← hnamed'.name_eq, hnamed.name_eq]
    rfl

lemma exists_records (hi : i ∈ items) {u u' : TypeTable} (h : i.take u = .ok (a, u')) :
    ∃ t', Records items a t t' := by
  cases i with
  | struct name fields loc =>
    obtain ⟨fs, v, -, h⟩ := exists_of_bind h
    cases h
    have hname : name ∈ structNames items := mem_filterMap.2 ⟨_, hi, rfl⟩
    obtain ⟨id, t', hid, hdefine, hshapes⟩ := ht.defineStruct hname fs
    exact ⟨t', .of_shapes ht rfl hshapes fun o => bind_eq_of_ok (define_eq_ok hid hdefine)⟩
  | variant name arms loc =>
    obtain ⟨as, v, -, h⟩ := exists_of_bind h
    cases h
    have hname : name ∈ variantNames items := mem_filterMap.2 ⟨_, hi, rfl⟩
    obtain ⟨id, t', hid, hdefine, hshapes⟩ := ht.defineVariant hname as
    exact ⟨t', .of_shapes ht rfl hshapes fun o => bind_eq_of_ok (define_eq_ok hid hdefine)⟩
  | outside | function =>
    obtain ⟨r, v, -, h⟩ := exists_of_bind h
    cases h
    exact ⟨t, ht, .refl t, fun _ => rfl, fun _ => rfl, nofun, fun _ _ => rfl⟩

/-! ### One run -/

/-- The declarations are taken one by one. -/
inductive Run (items : List Item) :
    TypeTable → Outline → List Item → List Part → TypeTable → Outline →
    Prop where
  | nil {t : TypeTable} {o : Outline} (serves : t.Serves items) : Run items t o [] [] t o
  | cons {t t' t'' T : TypeTable} {o o' : Outline} {i : Item} {a : Part} {is : List Item}
      {as : List Part} (serves : t.Serves items) (take : i.take t = .ok (a, t'))
      (records : Records items a t' t'') (rest : Run items t'' (a.outline o) is as T o') :
      Run items t o (i :: is) (a :: as) T o'

lemma exists_run_of_foldlM (his : is ⊆ items) (h : is.foldlM Item.build o t = .ok (o', T)) :
    ∃ as, Run items t o is as T o' := by
  induction is generalizing t o with
  | nil =>
    cases h
    exact ⟨[], .nil ht⟩
  | cons i is ih =>
    rw [foldlM_cons, Item.build_eq_bind, bind_assoc] at h
    obtain ⟨a, t', take, h⟩ := exists_of_bind h
    obtain ⟨t'', records⟩ := exists_records (advances_of_take ht take).1 (his (by simp)) take
    rw [bind_eq_of_ok (records.record o)] at h
    obtain ⟨as, rest⟩ := ih records.serves (fun j hj => his (by simp [hj])) h
    exact ⟨a :: as, .cons ht take records rest⟩

/-- On the way to the table `T`, the declaration was taken as `a`. -/
def TakenAs (items : List Item) (T : TypeTable) (i : Item) (a : Part) : Prop :=
  ∃ t t', t.Serves items ∧ i.take t = .ok (a, t') ∧ t'.Grows T

omit ht

namespace Run

variable (h : Run items t o is as T o')

include h

lemma foldlM_eq : is.foldlM Item.build o t = .ok (o', T) := by
  induction h with
  | nil serves => rfl
  | cons serves take records rest ih =>
    rw [foldlM_cons, Item.build_eq_bind, bind_assoc, bind_eq_of_ok take,
      bind_eq_of_ok (records.record _), ih]

lemma serves_end : T.Serves items := by
  induction h with
  | nil serves => exact serves
  | cons serves take records rest ih => exact ih

lemma grows : t.Grows T := by
  induction h with
  | nil serves => exact .refl _
  | cons serves take records rest ih =>
    exact (advances_of_take serves take).2.1.trans (records.grows.trans ih)

lemma taken : List.Forall₂ (TakenAs items T) is as := by
  induction h with
  | nil serves => exact .nil
  | cons serves take records rest ih =>
    exact .cons ⟨_, _, serves, take, records.grows.trans rest.grows⟩ ih

lemma typeNames_eq : as.filterMap Part.typeName? = is.filterMap Item.typeName? := by
  induction h with
  | nil serves => rfl
  | cons serves take records rest ih =>
    rw [filterMap_cons, filterMap_cons, (kind_of_take take).1, ih]

lemma functions_eq : o'.functions = o.functions ++ as.filterMap Part.function? := by
  induction h with
  | nil serves => simp
  | @cons t t' t'' T o o' i a is as serves take records rest ih =>
    rw [ih]
    cases a <;> simp [Part.outline, Part.function?, filterMap_cons]

lemma externs_eq :
    o'.externs = (as.filterMap Part.outside?).foldl
      (fun r sig => r.insert sig.name sig) o.externs := by
  induction h with
  | nil serves => rfl
  | @cons t t' t'' T o o' i a is as serves take records rest ih =>
    rw [ih]
    cases a <;> rfl

lemma kept {id : TypeId} {d : TypeDef} (hname : name ∉ as.filterMap Part.typeName?)
    (hid : t.lookup name = some id) (hd : t.get? id = some d) : T.get? id = some d := by
  induction h with
  | nil serves => exact hd
  | @cons t t' t'' T o o' i a is as serves take records rest ih =>
    obtain ⟨-, hgrows, hkeeps⟩ := advances_of_take serves take
    simp only [mem_filterMap, mem_cons, exists_eq_or_imp, not_or] at hname
    refine ih ?_ (records.grows.names (hgrows.names hid)) ?_
    · simpa only [mem_filterMap] using hname.2
    · rw [records.kept hname.1 (hgrows.names hid)]
      exact hkeeps id d hd

lemma defined (hnames : (as.filterMap Part.typeName?).Nodup) (ha : a ∈ as)
    (hdefines : a.defines? = some (name, shape)) :
    ∃ id, T.lookup name = some id ∧ T.get? id = some ⟨name, shape⟩ := by
  induction h with
  | nil serves => simp at ha
  | @cons t t' t'' T o o' i b is as serves take records rest ih =>
    rcases mem_cons.1 ha with rfl | ha
    · obtain ⟨id, hid, hd⟩ := records.defined hdefines
      have hname : a.typeName? = some name := by simp [Part.typeName?, hdefines]
      rw [filterMap_cons_some hname] at hnames
      exact ⟨id, rest.grows.names hid, rest.kept (nodup_cons.1 hnames).1 hid hd⟩
    · exact ih (hnames.sublist ((sublist_cons_self b as).filterMap _)) ha

end Run

/-! ### Two runs -/

lemma TakenAs.inGuise_eq (h : TakenAs items T i a) (h₂ : TakenAs items T₂ i a₂)
    (hρ : Aligns ρ T T₂) :
    a.inGuise (.renumbering ρ) = a₂ := by
  obtain ⟨t, t', ht, htake, hgrows⟩ := h
  obtain ⟨u, u', hu, htake₂, hgrows₂⟩ := h₂
  obtain ⟨a', v, hv, -, hlinked⟩ := follows_take i t u ht hu a t' htake
  obtain ⟨rfl, rfl⟩ := Prod.mk.inj (ok_inj hv htake₂)
  exact hlinked T T₂ ρ hgrows hgrows₂ hρ

/-- What is written at the end of one run is written at the end of another one. -/
lemma Run.within (h : Run items t o is as T o') (h₂ : ∀ i ∈ is, ∃ a₂, TakenAs items T₂ i a₂)
    (he : (e.idIn T).isSome) : (e.idIn t).isSome ∨ (e.idIn T₂).isSome := by
  induction h with
  | nil serves => exact .inl he
  | @cons t t' t'' T o o' i a is as serves take records rest ih =>
    refine (ih (fun j hj => h₂ j (by simp [hj])) he).elim (fun he => ?_) .inr
    rw [records.idIn] at he
    obtain ⟨a₂, u, u', hu, htake₂, hgrows₂⟩ := h₂ i (by simp)
    obtain ⟨a', v, hv, hadvances, -⟩ := follows_take i t u serves hu a t' take
    obtain ⟨rfl, rfl⟩ := Prod.mk.inj (ok_inj hv htake₂)
    exact (hadvances.within e he).imp_right hgrows₂.isSome_idIn

lemma exists_run (ht : t.Serves items) (his : is ⊆ items)
    (h : ∀ i ∈ is, ∃ a₂, TakenAs items T₂ i a₂)
    (o : Outline) : ∃ as T o', Run items t o is as T o' := by
  induction is generalizing t o with
  | nil => exact ⟨[], t, o, .nil ht⟩
  | cons i is ih =>
    obtain ⟨a₂, u, u', hu, htake₂, -⟩ := h i (by simp)
    obtain ⟨a, t', take, hadvances, -⟩ := follows_take i u t hu ht a₂ u' htake₂
    obtain ⟨t'', records⟩ := exists_records hadvances.serves₂ (his (by simp)) take
    obtain ⟨as, T, o', rest⟩ := ih records.serves (fun j hj => his (by simp [hj]))
      (fun j hj => h j (by simp [hj])) (a.outline o)
    exact ⟨a :: as, T, o', .cons ht take records rest⟩

lemma forall₂_exists_right {R : α → β → Prop} {xs : List α} {ys : List β} {x : α}
    (h : List.Forall₂ R xs ys) (hx : x ∈ xs) : ∃ y ∈ ys, R x y := by
  induction h with
  | nil => simp at hx
  | @cons x' y xs ys hxy _ ih =>
    rcases mem_cons.1 hx with rfl | hx
    · exact ⟨y, by simp, hxy⟩
    · obtain ⟨y', hy', hxy'⟩ := ih hx
      exact ⟨y', by simp [hy'], hxy'⟩

lemma Declared.exists_named (h : Declared items t) (he : (e.idIn t).isSome) :
    ∃ name loc, e = .named name loc ∧ name ∈ typeNames items := by
  cases e using TypeExpr.wrap_induction with
  | named name loc => exact ⟨name, loc, rfl, (h.known name).1 he⟩
  | wrap e w =>
    obtain ⟨id, hid⟩ := Option.isSome_iff_exists.1 he
    obtain ⟨i, -, hi⟩ := TypeTable.idIn_wrap_eq_some_iff.1 hid
    simp [h.bare] at hi

lemma Run.isSome_idIn (h : Declared items t) (run : Run items t o is as T o')
    (run₂ : Run items t₂ o is₂ as₂ T₂ o₂) (his : is ⊆ is₂) (he : (e.idIn T).isSome) :
    (e.idIn T₂).isSome := by
  have htaken : ∀ i ∈ is, ∃ a₂, TakenAs items T₂ i a₂ := by
    intro i hi
    obtain ⟨a₂, -, ha₂⟩ := forall₂_exists_right run₂.taken (his hi)
    exact ⟨a₂, ha₂⟩
  rcases run.within htaken he with he | he
  · obtain ⟨name, loc, rfl, hname⟩ := h.exists_named he
    exact (run₂.serves_end.known name).2 hname
  · exact he

lemma Run.inGuise_mem (run : Run items t o is as T o') (run₂ : Run items t₂ o is₂ as₂ T₂ o₂)
    (his : is ⊆ is₂) (hρ : Aligns ρ T T₂) (ha : a ∈ as) : a.inGuise (.renumbering ρ) ∈ as₂ := by
  obtain ⟨i, hi, htaken⟩ := forall₂_exists_right run.taken.flip ha
  obtain ⟨a₂, ha₂, htaken₂⟩ := forall₂_exists_right run₂.taken (his hi)
  rwa [TakenAs.inGuise_eq htaken htaken₂ hρ]

lemma map_inGuise_eq (h : List.Forall₂ (TakenAs items T) is as)
    (h₂ : List.Forall₂ (TakenAs items T₂) is as₂) (hρ : Aligns ρ T T₂) :
    as.map (Part.inGuise (.renumbering ρ)) = as₂ := by
  induction h generalizing as₂ with
  | nil =>
    cases h₂
    rfl
  | cons ha _ ih =>
    cases h₂ with
    | cons ha₂ h₂ => rw [map_cons, ha.inGuise_eq ha₂ hρ, ih h₂]

lemma filterMap_filter_isSome (f : α → Option β) (xs : List α) :
    (xs.filter fun x => (f x).isSome).filterMap f = xs.filterMap f := by
  rw [filterMap_filter]
  congr 1
  funext x
  cases f x <;> rfl

lemma Run.filterMap_eq (run : Run items t o is as T o') (run₂ : Run items t₂ o is₂ as₂ T₂ o₂)
    (hρ : Aligns ρ T T₂) (p : Item → Bool) (f : Part → Option β) (φ : β → β)
    (hp : ∀ {i a t t'}, i.take t = .ok (a, t') → (f a).isSome = p i)
    (hf : ∀ a : Part, f (a.inGuise (.renumbering ρ)) = (f a).map φ)
    (his : is.filter p = is₂.filter p) : as₂.filterMap f = (as.filterMap f).map φ := by
  have hrel : ∀ {T : TypeTable} {i : Item} {a : Part}, TakenAs items T i a →
    (p i ↔ (f a).isSome) := by
    rintro T i a ⟨u, u', -, htake, -⟩
    rw [hp htake]
  have hfilter := rel_filter (R := TakenAs items T) (fun _ _ h => hrel h) run.taken
  have hfilter₂ := rel_filter (R := TakenAs items T₂) (fun _ _ h => hrel h) run₂.taken
  rw [← his] at hfilter₂
  rw [← filterMap_filter_isSome, ← map_inGuise_eq hfilter hfilter₂ hρ, filterMap_map,
    ← filterMap_filter_isSome f as, map_filterMap]
  exact congrArg (filterMap · _) (funext hf)

end Ownership.Sketch
