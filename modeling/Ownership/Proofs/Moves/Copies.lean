import Ownership.Proofs.Loans.Paths
import Ownership.Proofs.Loans.Settled
import Ownership.Proofs.Moves.States
import Ownership.Proofs.Types.Alike
import Ownership.Proofs.Types.Memory

/-!
# Places of copied types

Taking the value of a place looks at the type of the place, and a copied place is only read. The
header of an arm looks at the types of its binders instead. The fields of a copied variant are
copied, so a binder of a field takes nothing out of a copied scrutinee. A binder behind the last
field has no type, though, and what has no type is not copied: such a binder moves the scrutinee
whatever its type is. This is the only way in which a copied place is ever moved.
-/

namespace Ownership

open List

/-! ### Copied types -/

namespace TypeTable

variable {t : TypeTable} {id : TypeId} {b : Bool} {d : TypeDef} {m : FieldDecl}

lemma Faithful.copies?_iff (h : t.Faithful) : t.copies? (some id) = .ok b ↔ t.Settles id b := by
  rw [h.copies?_eq]
  exact ⟨settles_of_classifyAnew (.start t id), fun hs => hs.classifyAnew_eq (.start t id)⟩

lemma Settles.member (h : t.Settles id true) (hd : t.get? id = some d) (hm : m ∈ d.members) :
    t.Settles m.type true := by
  obtain ⟨b, hb, h⟩ : ∃ b, b = true ∧ t.Settles id b := ⟨true, rfl, h⟩
  cases h with
  | kind hd' hr =>
    obtain rfl := Option.mem_unique hd hd'
    rw [TypeDef.members_of_settled hr] at hm
    cases hm
  | fields hd' hr hf =>
    obtain rfl := Option.mem_unique hd hd'
    rw [TypeDef.members_of_copyRule hr] at hm
    have hcopy := all_eq_true.mp hb m hm
    exact hcopy ▸ hf m hm

lemma Settles.isRef_of_pointee {inner : TypeId} (h : t.Settles id true) (hd : t.get? id = some d)
    (hp : d.pointee? = some inner) : d.isRef = true := by
  obtain ⟨b, hb, h⟩ : ∃ b, b = true ∧ t.Settles id b := ⟨true, rfl, h⟩
  cases h with
  | kind hd' hr =>
    obtain rfl := Option.mem_unique hd hd'
    cases hs : d.shape <;> simp_all [TypeDef.pointee?, TypeDef.isRef, TypeDef.copyRule]
  | fields hd' hr hf =>
    obtain rfl := Option.mem_unique hd hd'
    cases hs : d.shape <;> simp_all [TypeDef.pointee?, TypeDef.copyRule]

/-- The fields of a copied variant are copied. -/
lemma Faithful.copies?_armField {ty : Ty} {d? : Option TypeDef} {variant : Option String}
    (h : t.Faithful) (hcopy : t.tyIsCopy ty = .ok true) (href : t.tyIsRef ty = .ok false)
    (hd : t.aggregate? .variant ty = .ok d?) (hm : m ∈ Typing.armFields d? variant) :
    t.copies? (some m.type) = .ok true := by
  obtain ⟨d, rfl, hmem⟩ := Typing.Allows.mem_members_of_armFields hm
  cases ty with
  | unknown => cases hcopy
  | ref inner mutable => cases href
  | named id =>
    have hs : t.Settles id true := h.copies?_iff.mp hcopy
    rw [aggregate?, aggregateFrom] at hd
    obtain ⟨e, he, hd⟩ := bind_eq_ok.mp hd
    have hget := get_eq_ok_iff.mp he
    split at hd
    · obtain rfl := Option.some.inj (Except.ok.inj hd)
      exact h.copies?_iff.mpr (hs.member hget hmem)
    · split at hd
      · rename_i inner hp
        -- What points to something and is copied is a reference.
        rw [tyIsRef, he] at href
        cases href.symm.trans (congrArg Except.ok (hs.isRef_of_pointee hget hp))
      · cases hd

end TypeTable

/-! ### Binders -/

namespace Typing

variable {a : Arm} {types : List Ty} {ty : Ty}

/-- Whether an arm binds something by value that a scrutinee of a type does not have: it names more
than its variant has fields. -/
structure Overreaches (g : Typing) (ty : Ty) (a : Arm) : Prop where
  byValue : a.byRef = false
  owned : g.table.tyIsRef ty = .ok false
  beyond : ∃ d?, g.table.aggregate? .variant ty = .ok d? ∧
    ∃ i name, a.binders[i]? = some name ∧ name ≠ "_" ∧ (armFields d? a.variant).length ≤ i

lemma mem_namedTypes : ty ∈ namedTypes a types ↔
    ∃ (i : Nat) (name : String), a.binders[i]? = some name ∧ name ≠ "_" ∧ types[i]? = some ty := by
  constructor
  · intro h
    obtain ⟨⟨name, ty'⟩, hmem, rfl⟩ := mem_map.mp h
    obtain ⟨hmem, hne⟩ := mem_filter.mp hmem
    obtain ⟨i, hi⟩ := mem_iff_getElem?.mp hmem
    obtain ⟨hname, hty⟩ := getElem?_zip_eq_some.mp hi
    exact ⟨i, name, hname, of_decide_eq_true hne, hty⟩
  · rintro ⟨i, name, hname, hne, hty⟩
    have hmem : (name, ty) ∈ a.binders.zip types :=
      mem_of_getElem? (getElem?_zip_eq_some.mpr ⟨hname, hty⟩)
    exact mem_map.mpr ⟨_, mem_filter.mpr ⟨hmem, decide_eq_true hne⟩, rfl⟩

lemma getElem?_binderTypes {g : Typing} (h : g.binderTypes ty a = .ok types) : ∃ d? isRef isMutRef,
      g.table.aggregate? .variant ty = .ok d? ∧ g.table.tyIsRef ty = .ok isRef ∧
      ∀ (i : Nat) (name : String), a.binders[i]? = some name →
        let field := Ty.ofOption (((armFields d? a.variant)[i]?).map FieldDecl.type)
        types[i]? = some
          (if a.byRef || isRef then .ref field (isMutRef && !a.byRef) else field) := by
  obtain ⟨d?, hd, h⟩ := bind_eq_ok.mp h
  obtain ⟨isRef, href, h⟩ := bind_eq_ok.mp h
  obtain ⟨isMutRef, -, h⟩ := bind_eq_ok.mp h
  cases h
  refine ⟨d?, isRef, isMutRef, hd, href, fun i name hname => ?_⟩
  have hlt := (List.getElem?_eq_some_iff.mp hname).1
  simp [hlt]

end Typing

namespace Context

variable {c : Context} {ty : Ty} {a : Arm} {types : List Ty} {takes : Bool}

/-- Binders take something if one is neither a reference nor copied. -/
lemma takesAny_iff (h : c.takesAny types = .ok takes) : takes = true ↔
    ∃ ty ∈ types, ty.isLocalRef = false ∧ c.typing.table.tyIsCopy ty = .ok false := by
  induction types generalizing takes with
  | nil =>
    cases h
    simp
  | cons ty rest ih =>
    have hsplit : ∃ here later, c.takesAny rest = .ok later ∧ takes = (here || later) ∧
        (here = true ↔ ty.isLocalRef = false ∧ c.typing.table.tyIsCopy ty = .ok false) := by
      rw [takesAny] at h
      split at h
      · rename_i href
        obtain ⟨here, hhere, h⟩ := bind_eq_ok.mp h
        cases hhere
        obtain ⟨later, hlater, h⟩ := bind_eq_ok.mp h
        exact ⟨false, later, hlater, (Except.ok.inj h).symm, by simp [href]⟩
      · rename_i href
        obtain ⟨here, hhere, h⟩ := bind_eq_ok.mp h
        obtain ⟨copy, hcopy, rfl⟩ := map_eq_ok.mp hhere
        obtain ⟨later, hlater, h⟩ := bind_eq_ok.mp h
        exact ⟨!copy, later, hlater, (Except.ok.inj h).symm, by simp [href, hcopy]⟩
    obtain ⟨here, later, hlater, rfl, hhere⟩ := hsplit
    rw [Bool.or_eq_true, hhere, ih hlater, exists_mem_cons_iff]

/-- Over a copied scrutinee only a binder without a field takes something. -/
lemma takesAny_iff_overreaches (h : c.typing.table.Faithful)
    (hcopy : c.typing.table.tyIsCopy ty = .ok true) (htypes : c.typing.binderTypes ty a = .ok types)
    (htakes : c.takesAny (Typing.namedTypes a types) = .ok takes) :
    takes = true ↔ c.typing.Overreaches ty a := by
  obtain ⟨d?, isRef, isMutRef, hd, href, hnth⟩ := Typing.getElem?_binderTypes htypes
  rw [takesAny_iff htakes]
  constructor
  · rintro ⟨ty', hmem, hlocal, hmoves⟩
    obtain ⟨i, name, hname, hne, hty⟩ := Typing.mem_namedTypes.mp hmem
    obtain rfl := Option.some.inj ((hnth i name hname).symm.trans hty)
    -- A type that is not a reference is that of a field, or there is no such field.
    cases hby : a.byRef || isRef with
    | true =>
      rw [if_pos hby] at hlocal
      cases hlocal
    | false =>
      obtain ⟨hbyRef, rfl⟩ := Bool.or_eq_false_iff.mp hby
      rw [if_neg (by simp [hbyRef])] at hmoves
      refine ⟨hbyRef, href, d?, hd, i, name, hname, hne, ?_⟩
      by_contra hlt
      rw [not_le] at hlt
      rw [getElem?_eq_getElem hlt] at hmoves
      have hfield := h.copies?_armField hcopy href hd (getElem_mem hlt)
      cases hmoves.symm.trans hfield
  · rintro ⟨hby, howned, d?', hd', i, name, hname, hne, hbeyond⟩
    obtain rfl := ok_inj hd hd'
    obtain rfl := ok_inj href howned
    refine ⟨.unknown, Typing.mem_namedTypes.mpr ⟨i, name, hname, hne, ?_⟩, rfl, rfl⟩
    simp [hnth i name hname, hby, getElem?_eq_none hbeyond, Ty.ofOption]

end Context

lemma Typing.exprType_of_place? {g : Typing} {meaning : String → Option Binding} {e : Expr}
    {p : Place} (h : e.place? meaning = some p) : g.exprType meaning e = g.placeType p := by
  cases e with
  | var name loc | field e name loc | deref e loc => simp [exprType, h]
  | _ => cases h

/-! ### Moves -/

namespace Context

variable {c : Context} {e : Event} {s s' u : Session} {q : Place} {pos : Int} {a : Arm}
  {sel : Selection}

def Copies (c : Context) (q : Place) : Prop :=
  ∃ ty, c.typing.placeType q = .ok ty ∧ c.typing.table.tyIsCopy ty = .ok true

instance (c : Context) (q : Place) : Decidable (c.Copies q) :=
  decidable_of_iff ((c.typing.placeType q >>= c.typing.table.tyIsCopy).toOption = some true) (by
    rw [Copies, ← bind_eq_ok]
    cases c.typing.placeType q >>= c.typing.table.tyIsCopy <;> simp [Except.toOption])

/-- Whether an event is the header of an arm over a place. -/
structure Opens (c : Context) (e : Event) (a : Arm) (sel : Selection) (q : Place) : Prop where
  kind : e.kind = .step
  node : e.node = .arm a (some sel)
  place : sel.scrutinee.place? (c.meaning sel.label) = some q

/-- Whether an event is the header of an arm over a place that overreaches, unless its selection
states the type of the scrutinee. -/
def Overreaches (c : Context) (e : Event) (q : Place) : Prop :=
  ∃ a sel, c.Opens e a sel q ∧
    (sel.type = none → ∃ ty, c.typing.placeType q = .ok ty ∧ c.typing.Overreaches ty a)

lemma Asks.not_copies {rs : List Request} (h : c.Asks pos rs s (.move q) u) : ¬c.Copies q := by
  rintro ⟨ty, hty, hcopy⟩
  obtain ⟨r, -, hr⟩ := exists_of_asks h
  cases r with
  | fail fault => cases hr
  | place demand p span kept =>
    rcases demanded_cases hr with h | ⟨kind, h⟩ | ⟨h, -, ty', hty', hcopies⟩
    · cases h
    · cases h
    · obtain rfl := Access.move.inj h
      obtain rfl := ok_inj hty hty'
      cases hcopy.symm.trans hcopies

lemma Opens.takes_iff {ty : Ty} {types : List Ty} {takes : Bool} (hf : c.typing.table.Faithful)
    (h : c.Opens e a sel q) (hnone : sel.type = none) (hty : c.typing.placeType q = .ok ty)
    (hcopy : c.typing.table.tyIsCopy ty = .ok true) (htypes : c.armTypes sel a = .ok types)
    (htakes : c.takesAny types = .ok takes) : takes = true ↔ c.typing.Overreaches ty a := by
  obtain ⟨ty', hty', htypes⟩ := bind_eq_ok.mp htypes
  rw [hnone] at hty'
  obtain rfl := Except.ok.inj (hty.symm.trans ((Typing.exprType_of_place? h.place).symm.trans hty'))
  obtain ⟨bound, hbound, htypes⟩ := bind_eq_ok.mp htypes
  cases htypes
  exact takesAny_iff_overreaches hf hcopy hbound htakes

/-- Only the header of an arm that overreaches tries to move what is copied. -/
theorem Tries.overreaches (hf : c.typing.table.Faithful) (h : c.Tries e s (.move q) u)
    (hq : c.Copies q) : c.Overreaches e q := by
  cases h.trial with
  | asked _ _ hasks => exact (hasks.not_copies hq).elim
  | stored _ _ _ hstore _ =>
    rcases storage_cases hstore with ⟨r, hr⟩ | hr
    · cases hr
    · cases hr
  | inspected ha _ => cases ha
  | @header a sel hn htries =>
    obtain ⟨p, types, takes, hp, htypes, htakes, ⟨rfl, hmove, -⟩ | ⟨-, -, hlend, -⟩⟩ := htries
    · obtain ⟨rfl, -⟩ := consumption_move hmove
      obtain ⟨hplace, -⟩ := Option.filter_eq_some_iff.mp hp
      have hopens : c.Opens e a sel _ := ⟨h.1, hn, hplace⟩
      refine ⟨a, sel, hopens, fun hnone => ?_⟩
      obtain ⟨ty, hty, hcopy⟩ := hq
      exact ⟨ty, hty, (hopens.takes_iff hf hnone hty hcopy htypes htakes).mp rfl⟩
    · cases hlend

/-! ### Headers that overreach -/

lemma usable_fillBinders (binders : List (Binding × Ty)) (h : s.flow.Usable q) :
    (fillBinders binders s).flow.Usable q := by
  have hmark :
      ∀ {f : Flow} {b : Binding}, f.Usable q → (f.mark (.ofBinding b) .owned).Usable q := by
    rintro f b ⟨hinit, hmoved⟩
    refine ⟨?_, fun p hp => ?_⟩
    · rw [Flow.stateOf_mark]
      split
      · decide
      · exact hinit
    · rw [Flow.stateOf_mark]
      split
      · decide
      · exact hmoved p hp
  unfold fillBinders
  induction binders generalizing s with
  | nil => exact h
  | cons b binders ih => exact ih (hmark h)

lemma isMoved_move (c : Context) (pos : Int) (span : Span) (h : s.flow.refusal? q = none) :
    (c.move q pos span s).flow.isMoved q = true := by
  simp [move, h, Session.withFlow, Flow.isMoved_iff, Flow.stateOf_moveOut]

/-- A header that names too many fields moves its copied scrutinee. -/
lemma Opens.isMoved {ty : Ty} (hf : c.typing.table.Faithful) (h : c.Opens e a sel q)
    (hnone : sel.type = none) (hty : c.typing.placeType q = .ok ty)
    (hcopy : c.typing.table.tyIsCopy ty = .ok true) (hover : c.typing.Overreaches ty a)
    (hbehind : c.typing.refPrefix? q = .ok none) (husable : s.flow.refusal? q = none)
    (hexec : c.execute e s = .ok s') : s'.flow.isMoved q = true := by
  have htouch : c.touchable sel s = some q := by simp [touchable, h.place, husable]
  rw [execute, h.kind, h.node, executeNode, htouch] at hexec
  obtain ⟨types, htypes, hexec⟩ := bind_eq_ok.mp hexec
  obtain ⟨takes, htakes, hexec⟩ := bind_eq_ok.mp hexec
  obtain ⟨m, hm, hexec⟩ := bind_eq_ok.mp hexec
  obtain rfl := (h.takes_iff hf hnone hty hcopy htypes htakes).mpr hover
  have hconsume : c.consumption q = .ok (.move q) := by
    rw [consumption, hbehind]
    rfl
  rw [takeApart, hconsume] at hm
  cases hm
  have husable' := usable_fillBinders ((c.tree.declaredBy e.pos).zip types)
    (Flow.refusal?_eq_none_iff.mp husable)
  have hmoved := isMoved_move c e.pos (a.loc.orElse s.span) (Flow.refusal?_eq_none_iff.mpr husable')
  -- By value, an arm hands on what the scrutinee carries, and the ownership state stays as it is.
  rw [hover.byValue, shareLoans] at hexec
  split at hexec
  · rw [← Except.ok.inj hexec]
    exact hmoved
  · rw [← Except.ok.inj hexec, (Session.Aside.attachAll _ _ _ _ _).flow]
    exact hmoved

end Context

/-! ### Functions -/

namespace Context

variable {c : Context} {program : Program} {f : Function} {options : Options}

/-- A place that is moved has been moved by some event before. -/
lemma exists_movedAt (hnests : c.tree.Nests c.function.events) {before after : List Station}
    {st : Station} (hlog : c.log = before ++ st :: after) {q : Place}
    (hq : st.session.flow.isMoved q = true) : ∃ pos, c.MovedAt before q pos := by
  cases h₀ : c.initial with
  | error fault =>
    rw [log, h₀] at hlog
    simp [Fault.seen] at hlog
  | ok s₀ =>
    have halong := (kept_log hnests h₀).along
    rw [hlog] at halong
    have hkept : ∃ p, c.Kept p before st.session := by
      have hholds := halong.holds
      cases st with
      | visit e s => exact ⟨e.pos, hholds⟩
      | finish pos s =>
        obtain ⟨p, -, -, hkept⟩ := hholds
        exact ⟨p, hkept⟩
    obtain ⟨p, hkept⟩ := hkept
    obtain ⟨site, hsite⟩ := (hkept.flow.sited q).mpr (of_decide_eq_true hq)
    exact ⟨site.pos, hkept.flow.sites q site hsite⟩

/-- The moves that findings cite are moves that the run has made. -/
lemma cites_run (hnests : c.tree.Nests c.function.events) {s : Session} (h : c.run = .ok s) :
    c.Cites c.log s.findings := by
  obtain ⟨s₀, s₁, h₀, h₁, hexit⟩ := run_cases h
  obtain ⟨scope, m, -, hm, rfl⟩ := execute_exit rfl hexit
  have hcites := ((kept_log hnests h₀).last s₁ h₁).cites.finishScope hm
  exact hcites

/-- In a program whose types are made by operations, walked with or without loans, a copied place
is moved only by the header of an arm over it that names more than its variant has fields, unless
the selection states the type of the scrutinee. (1) Nothing else tries to move it. (2) Where it is
recorded as moved, such a header was visited before. (3) A finding that cites the move of a place
cites one by such a header if the place is copied. (4) Such a header does move it, if it can be
used and does not lie behind a reference. -/
theorem copied_place_moved_iff_overreached {steps : List TypeTable.Step}
    (htypes : program.types = (TypeTable.empty.run steps).2)
    (hbuild : build program f options = .ok c) (loans : Bool) :
    let walked := c.tracking loans
    (∀ e s q u, walked.Tries e s (.move q) u → walked.Copies q → walked.Overreaches e q) ∧
    (∀ before st after, walked.log = before ++ st :: after → ∀ q, st.session.flow.isMoved q = true →
      walked.Copies q → ∃ e s, .visit e s ∈ before ∧ walked.Overreaches e q) ∧
    (∀ s, walked.run = .ok s → ∀ x ∈ s.findings, ∀ place pos,
      x.violation.citedMove? = some (place, pos) → ∃ q, q.describe = place ∧
        (walked.Copies q → ∃ e s, .visit e s ∈ walked.log ∧ e.pos = pos ∧ walked.Overreaches e q)) ∧
    ∀ e a sel q ty, walked.Opens e a sel q → sel.type = none → walked.typing.placeType q = .ok ty →
      walked.typing.table.tyIsCopy ty = .ok true → walked.typing.Overreaches ty a →
      walked.typing.refPrefix? q = .ok none → ∀ s s', s.flow.refusal? q = none →
        walked.execute e s = .ok s' → s'.flow.isMoved q = true := by
  intro walked
  have hf : walked.typing.table.Faithful := by
    change c.typing.program.types.Faithful
    rw [(programs_of_build hbuild).2, htypes]
    exact .run (t := TypeTable.empty) (.empty _) steps
  have htree := nests_of_build hbuild
  have hnests : walked.tree.Nests walked.function.events := htree
  refine ⟨fun e s q u htry hq => htry.overreaches hf hq,
    fun before st after hlog q hq hcopies => ?_,
    fun s hrun x hx place pos hcite => ?_,
      fun e a sel q ty hopens hnone hty hcopy hover hbehind s s' => ?_⟩
  · obtain ⟨-, e, s, hvisit, -, -, u, htry, -⟩ := exists_movedAt hnests hlog hq
    exact ⟨e, s, hvisit, htry.overreaches hf hcopies⟩
  · obtain ⟨-, q, hq, e, s', hvisit, -, hpos, u, htry, -⟩ :=
      cites_run hnests hrun x hx place pos hcite
    exact ⟨q, hq, fun hcopies => ⟨e, s', hvisit, hpos, htry.overreaches hf hcopies⟩⟩
  · exact hopens.isMoved hf hnone hty hcopy hover hbehind

end Context

/-! ### An arm with one binder too many -/

/-- A program with a copied variant, of whose arms one has a field. -/
def Program.levels : Program where
  types := (TypeTable.empty.run [.ensureInt,
    .declareVariant "Level" (some [⟨"Low", []⟩, ⟨"High", [⟨"value", ⟨1⟩⟩]⟩])]).2

/-- Takes a level apart, names two fields where there is one, and uses the level again. -/
def Function.overbinding : Function where
  name := "overbinding"
  params := [⟨"n", some ⟨2⟩, false, .unknown⟩]
  body := .mk [.select (.var "n" .unknown)
      [.mk (some "High") (.mk [] .unknown) ["x", "y"] false .unknown,
        .mk none (.mk [] .unknown) [] false .unknown] none .unknown,
    .evaluate (.var "n" .unknown) .unknown] .unknown

namespace Context

lemma exists_moved_overbinding : ∃ c s st q, build .levels .overbinding {} = .ok c ∧ c.run = .ok s ∧
    st ∈ c.log ∧ c.Copies q ∧ st.session.flow.isMoved q = true ∧
    s.findings.map (·.violation.citedMove?) = [some (q.describe, 4)] := by
  have hok :
      ((build .levels .overbinding {} >>= fun c => (c, ·) <$> c.run).toOption.any fun (c, s) =>
      c.log.any fun st => st.session.flow.states.entries.any fun q =>
        decide (c.Copies q.1 ∧ st.session.flow.isMoved q.1 = true ∧
          s.findings.map (·.violation.citedMove?) = [some (q.1.describe, 4)])) = true := by
    decide +kernel
  obtain ⟨c, s, hbuild, hrun, htest⟩ := exists_run_of_test hok
  obtain ⟨st, hst, htest⟩ := any_eq_true.mp htest
  obtain ⟨⟨q, state⟩, -, htest⟩ := any_eq_true.mp htest
  exact ⟨c, s, st, q, hbuild, hrun, hst, of_decide_eq_true htest⟩

/-- The level is recorded as moved after a visit of the header with two binders. -/
theorem copied_place_moved_iff_overreached_overbinding : ∃ c before st after q e u,
    build .levels .overbinding {} = .ok c ∧ (c.tracking true).log = before ++ st :: after ∧
    st.session.flow.isMoved q = true ∧ (c.tracking true).Copies q ∧ .visit e u ∈ before ∧
    (c.tracking true).Overreaches e q := by
  obtain ⟨c, -, st, q, hbuild, -, hst, hcopies, hmoved, -⟩ := exists_moved_overbinding
  have htracks : c.tracking true = c := by
    rw [tracking, ← (build_fields hbuild).1]
  obtain ⟨before, after, hlog⟩ :=
    append_of_mem (htracks.symm ▸ hst : st ∈ (c.tracking true).log)
  have htypes : Program.levels.types = (TypeTable.empty.run _).2 := rfl
  obtain ⟨-, hstates, -⟩ := copied_place_moved_iff_overreached htypes hbuild true
  have hcopies' : (c.tracking true).Copies q := hcopies
  obtain ⟨e, u, hvisit, hover⟩ := hstates before st after hlog q hmoved hcopies'
  exact ⟨c, before, st, after, q, e, u, hbuild, hlog, hmoved, hcopies', hvisit, hover⟩

/-- A place of a copied type is recorded as moved, and a finding cites the move. -/
theorem copied_place_moved_overbinding : ∃ c s st q, build .levels .overbinding {} = .ok c ∧
    c.run = .ok s ∧ st ∈ c.log ∧ c.Copies q ∧ st.session.flow.isMoved q = true ∧
    s.findings.map (·.violation.citedMove?) = [some (q.describe, 4)] :=
  exists_moved_overbinding

end Context

end Ownership
