import Ownership.Proofs.Checker.Progress
import Ownership.Proofs.Control.Headers
import Ownership.Proofs.Loans.Paths
import Ownership.Proofs.Moves.Copies
import Ownership.Proofs.Moves.Overlaps

/-!
# Binders that inherit loans

The binders of an arm over a reference are references into what the scrutinee refers to, and its
loans are theirs as well. They get them at the header of the arm, and only those that are live
there: a loan that nothing wants after the selection has ended by then, and a binding that is
defined again in an earlier arm does not count as a holder in the later ones. What a binder gets
lives as long as the binder is used.
-/

namespace Ownership

open List

/-! ### Loans over time -/

namespace Loan

variable {t : ScopeTree} {b : Binding} {since pos : Int} {l k l' : Loan} {ls ls' : List Loan}

/-- Whether a binding got a loan at a position. -/
def Holds (l : Loan) (b : Binding) (since : Int) : Prop :=
  ∃ h ∈ l.holders, h.binding.index = b.index ∧ h.since = since

instance (l : Loan) (b : Binding) (since : Int) : Decidable (l.Holds b since) :=
  inferInstanceAs (Decidable (∃ h ∈ l.holders, h.binding.index = b.index ∧ h.since = since))

/-- A binding holds a loan until it is defined again. -/
lemma heldBy_iff {p : Int} : l.heldBy t b p = true ↔
    ∃ since, l.Holds b since ∧ ∀ d ∈ t.defsOf b, since < d → p ≤ d := by
  have hdefs : ∀ {h : Holder}, h.binding.index = b.index → t.defsOf h.binding = t.defsOf b := by
    intro h hindex
    rw [ScopeTree.defsOf, ScopeTree.defsOf, hindex]
  have hstill : ∀ {h : Holder}, h.binding.index = b.index →
      (t.stillHolds h.binding h.since p = true ↔ ∀ d ∈ t.defsOf b, h.since < d → p ≤ d) := by
    intro h hindex
    rw [ScopeTree.stillHolds, hdefs hindex]
    simp
  simp only [heldBy, any_eq_true, Bool.and_eq_true, decide_eq_true_eq]
  constructor
  · rintro ⟨h, hh, hindex, hkeeps⟩
    exact ⟨h.since, ⟨h, hh, hindex, rfl⟩, (hstill hindex).mp hkeeps⟩
  · rintro ⟨since, ⟨h, hh, hindex, rfl⟩, hkeeps⟩
    exact ⟨h, hh, hindex, (hstill hindex).mpr hkeeps⟩

/-- Whether a loan is another one as it was before it got more holders. -/
structure Becomes (l l' : Loan) : Prop where
  id : l'.id = l.id
  start : l'.start = l.start
  holders : l.holders <+: l'.holders

lemma Becomes.refl (l : Loan) : l.Becomes l := ⟨rfl, rfl, prefix_refl _⟩

lemma Becomes.trans (h : l.Becomes k) (h' : k.Becomes l') : l.Becomes l' :=
  ⟨h'.id.trans h.id, h'.start.trans h.start, h.holders.trans h'.holders⟩

lemma Becomes.holds (h : l.Becomes l') (hl : l.Holds b since) : l'.Holds b since := by
  obtain ⟨x, hx, hrest⟩ := hl
  exact ⟨x, h.holders.subset hx, hrest⟩

lemma Becomes.attach (l : Loan) (t : ScopeTree) (b : Binding) (since : Int) :
    l.Becomes (l.attach t b since) := by
  refine ⟨id_attach, start_attach, ?_⟩
  rcases attach_cases t b since l with heq | ⟨-, hholders, -⟩
  · simp only [heq, prefix_rfl]
  · rw [hholders]
    exact prefix_append _ _

lemma holds_attach (l : Loan) (t : ScopeTree) (b : Binding) (since : Int) :
    (l.attach t b since).Holds b since := by
  unfold Loan.attach
  split
  · rename_i hany
    obtain ⟨h, hh, hboth⟩ := any_eq_true.mp hany
    simp only [Bool.and_eq_true, decide_eq_true_eq] at hboth
    exact ⟨h, hh, hboth⟩
  · exact ⟨⟨b, since⟩, mem_append_right _ mem_cons_self, rfl, rfl⟩

def attachAll (t : ScopeTree) (bs : List Binding) (since : Int) (l : Loan) : Loan :=
  bs.foldl (fun l b => l.attach t b since) l

lemma Becomes.attachAll (l : Loan) (t : ScopeTree) (bs : List Binding) (since : Int) :
    l.Becomes (l.attachAll t bs since) := by
  induction bs generalizing l with
  | nil => exact .refl l
  | cons b bs ih => exact (Becomes.attach l t b since).trans (ih _)

lemma holds_attachAll (l : Loan) (t : ScopeTree) {bs : List Binding} (hb : b ∈ bs) (since : Int) :
    (l.attachAll t bs since).Holds b since := by
  induction bs generalizing l with
  | nil => cases hb
  | cons b' bs ih =>
    rcases mem_cons.mp hb with rfl | hb
    · exact (Becomes.attachAll _ t bs since).holds (holds_attach l t b since)
    · exact ih _ hb

lemma exists_becomes_change (hc : Change t pos ls ls') (hl : l ∈ ls) :
    ∃ l' ∈ ls', l.Becomes l' := by
  cases hc with
  | grant place kind span hfree => exact ⟨l, mem_append_left _ hl, .refl l⟩
  | attach held b hlive =>
    refine ⟨_, mem_map_of_mem hl, ?_⟩
    split
    · exact .attach l t b pos
    · exact .refl l

lemma Exact.activeAt_of_holds (h : l.Exact t) (hb : l.Holds b since) {x q : Int}
    (hx : x ∈ t.usesOf b) (hlt : since < x) (hdefs : ∀ d ∈ t.defsOf b, since < d → x ≤ d)
    (hq : l.start ≤ q) (hqx : q ≤ x) : l.activeAt q = true := by
  obtain ⟨g, hg, hindex, rfl⟩ := hb
  have hwants : t.Wants g x := by
    refine .inr (.inl ⟨x, ?_, hlt, ?_, le_rfl⟩)
    · rwa [ScopeTree.usesOf, hindex]
    · rwa [ScopeTree.defsOf, hindex]
  exact activeAt_iff.mpr (.inl ⟨hq, hqx.trans ((h.stop x).mpr (.inr ⟨g, hg, hwants⟩))⟩)

end Loan

namespace Session

variable {s : Session} {t : ScopeTree} {pos : Int}

lemma loans_attachAll {held : List Nat} {step : Session → Binding → Session}
    (hstep : ∀ s b, (step s b).loans =
      s.loans.map fun l => if l.id ∈ held then l.attach t b pos else l) (bs : List Binding)
    (s : Session) : (bs.foldl step s).loans =
      s.loans.map fun l => if l.id ∈ held then l.attachAll t bs pos else l := by
  induction bs generalizing s with
  | nil => simp [Loan.attachAll]
  | cons b bs ih =>
    rw [foldl_cons, ih, hstep, map_map]
    refine map_congr_left fun l _ => ?_
    by_cases hid : l.id ∈ held
    · simp [Loan.attachAll, hid]
    · simp [hid]

lemma mem_carriedBy_iff (h : Loan.Booked s.loans) {q : Place} {l : Loan} (hl : l ∈ s.loans) :
    l.id ∈ s.carriedBy t q pos ↔ l.activeAt pos = true ∧ l.heldBy t q.base pos = true := by
  refine ⟨mem_carriedBy h hl, fun hboth => ?_⟩
  refine mem_map_of_mem (mem_filter.mpr ⟨hl, ?_⟩)
  rw [hboth.1, hboth.2]
  rfl

end Session

/-! ### Headers of arms over references -/

namespace Typing

/-- Over a reference all binders are references. -/
lemma refs_of_binderTypes {g : Typing} {ty : Ty} {a : Arm} {types : List Ty}
    (h : g.binderTypes ty a = .ok types) (href : g.table.tyIsRef ty = .ok true) :
    (namedTypes a types).length = a.named.length ∧
      ∀ ty ∈ namedTypes a types, ty.isLocalRef = true := by
  constructor
  · have hlength : types.length = a.binders.length := by
      obtain ⟨d?, -, h⟩ := bind_eq_ok.mp h
      obtain ⟨isRef, -, h⟩ := bind_eq_ok.mp h
      obtain ⟨isMutRef, -, h⟩ := bind_eq_ok.mp h
      cases h
      simp
    have hnames : (a.binders.zip types).map Prod.fst = a.binders := map_fst_zip hlength.ge
    rw [namedTypes, length_map, Arm.named, ← hnames, filter_map, length_map]
    rw [hnames]
    rfl
  · intro ty' hty'
    obtain ⟨d?, isRef, isMutRef, -, href', hnth⟩ := getElem?_binderTypes h
    obtain rfl := ok_inj href href'
    obtain ⟨i, name, hname, -, hi⟩ := mem_namedTypes.mp hty'
    obtain rfl := Option.some.inj ((hnth i name hname).symm.trans hi)
    simp [Ty.isLocalRef]

end Typing

namespace Context

variable {c : Context} {s s' m u : Session} {e : Event} {a : Arm} {sel : Selection} {p : Place}
  {pos : Int}

lemma loans_fillBinders (binders : List (Binding × Ty)) (s : Session) :
    (fillBinders binders s).loans = s.loans :=
  foldl_keeps (g := fun (s : Session) (b : Binding × Ty) => s.mark (.ofBinding b.1) .owned)
    Session.loans (fun _ _ => rfl) binders s

/-- What the header of an arm does to loans, if it binds by value and all its binders are
references. -/
lemma loans_bindArm (hc : c.tracksLoans = true) {types : List Ty}
    (htypes : c.armTypes sel a = .ok types) (hrefs : ∀ ty ∈ types, ty.isLocalRef = true)
    (hlength : (c.tree.declaredBy pos).length = types.length) (hby : a.byRef = false)
    (h : c.bindArm sel (some p) pos a s = .ok s') :
    s'.loans = s.loans.map fun l => if l.id ∈ s.carriedBy c.tree p pos
      then l.attachAll c.tree (c.tree.declaredBy pos) pos else l := by
  obtain ⟨types', htypes', h⟩ := bind_eq_ok.mp h
  obtain rfl := ok_inj htypes htypes'
  obtain ⟨takes, htakes, h⟩ := bind_eq_ok.mp h
  obtain ⟨m, hm, h⟩ := bind_eq_ok.mp h
  have hnone : takes = false := by
    rw [← Bool.not_eq_true, takesAny_iff htakes]
    rintro ⟨ty, hty, hlocal, -⟩
    rw [hrefs ty hty] at hlocal
    cases hlocal
  subst hnone
  cases hm
  have hloans := loans_fillBinders ((c.tree.declaredBy pos).zip types) s
  have hbinders : (((c.tree.declaredBy pos).zip types).filter (·.2.isLocalRef)).map Prod.fst =
      c.tree.declaredBy pos := by
    rw [filter_eq_self.mpr, map_fst_zip hlength.le]
    exact fun x hx => hrefs x.2 (of_mem_zip hx).2
  unfold shareLoans at h
  dsimp only at h
  rw [hbinders, hc, hby] at h
  split at h
  · rename_i hempty
    cases h
    have hnil : c.tree.declaredBy pos = [] := by simpa using hempty
    rw [hloans, hnil]
    simp [Loan.attachAll]
  · cases h
    have hheld : c.carried p pos (fillBinders ((c.tree.declaredBy pos).zip types) s) =
        s.carriedBy c.tree p pos := by
      rw [carried, if_pos hc, Session.carriedBy, hloans, Session.carriedBy]
    rw [Session.loans_attachAll fun _ _ => rfl, hloans, hheld]

/-- The loans as the header of such an arm leaves them: the binders have got those that are live and
that the scrutinee holds. -/
lemma exists_bound_loan (hc : c.tracksLoans = true) (hb : Loan.Booked s.loans) {types : List Ty}
    (htypes : c.armTypes sel a = .ok types) (hrefs : ∀ ty ∈ types, ty.isLocalRef = true)
    (hlength : (c.tree.declaredBy pos).length = types.length) (hby : a.byRef = false)
    (h : c.bindArm sel (some p) pos a s = .ok s') {l : Loan} (hl : l ∈ s.loans) :
    ∃ l' ∈ s'.loans, l.Becomes l' ∧ ∀ b ∈ c.tree.declaredBy pos, l'.Holds b pos ↔
      l.Holds b pos ∨ l.activeAt pos = true ∧ l.heldBy c.tree p.base pos = true := by
  rw [loans_bindArm hc htypes hrefs hlength hby h]
  refine ⟨_, mem_map_of_mem hl, ?_⟩
  rw [← Session.mem_carriedBy_iff hb hl]
  split
  · rename_i hid
    refine ⟨.attachAll .., fun b hmem => ?_⟩
    exact ⟨fun _ => .inr hid, fun _ => Loan.holds_attachAll l c.tree hmem pos⟩
  · rename_i hid
    exact ⟨.refl l, fun b _ => ⟨.inl, fun h => h.resolve_right hid⟩⟩

/-! ### Functions -/

section Functions

variable {program : Program} {f : Function} {options : Options} {s₀ : Session}
  {vs ws : List (Event × Session)}

lemma Trail.exact (hc : c.tracksLoans = true) (ht : c.tree.Nested) (h : c.Trail False vs s s')
    (hb : Loan.Booked s.loans) (hs : ∀ l ∈ s.loans, l.Exact c.tree) :
    Loan.Booked s'.loans ∧ ∀ l ∈ s'.loans, l.Exact c.tree :=
  h.keeps (Q := fun _ => True) (P := fun ls => ∀ l ∈ ls, l.Exact c.tree) hc
    (fun _ hb hch hs => Loan.exact_change ht hb hch hs) (fun _ _ => trivial) hb hs

lemma Trail.exists_becomes (hc : c.tracksLoans = true) (h : c.Trail False vs s s')
    (hb : Loan.Booked s.loans) {l : Loan} (hl : l ∈ s.loans) : ∃ l' ∈ s'.loans, l.Becomes l' := by
  refine (h.keeps (Q := fun _ => True) (P := fun ls => ∃ l' ∈ ls, l.Becomes l') hc ?_
    (fun _ _ => trivial) hb ⟨l, hl, .refl l⟩).2
  rintro pos ls ls' - - hch ⟨k, hk, hbecomes⟩
  obtain ⟨k', hk', hbecomes'⟩ := Loan.exists_becomes_change hch hk
  exact ⟨k', hk', hbecomes.trans hbecomes'⟩

/-- The binders of an arm over a reference are references, one for each binding that the header
declares. -/
lemma Opens.refs (hbuild : build program f options = .ok c) (he : e ∈ f.events)
    (h : c.Opens e a sel p) {ty : Ty}
    (hty : c.typing.scrutineeType (c.meaning sel.label) sel.scrutinee sel.type = .ok ty)
    (href : c.typing.table.tyIsRef ty = .ok true) {types : List Ty}
    (htypes : c.armTypes sel a = .ok types) : (∀ ty ∈ types, ty.isLocalRef = true) ∧
      (c.tree.declaredBy e.pos).length = types.length := by
  obtain ⟨ty', hty', htypes⟩ := bind_eq_ok.mp htypes
  obtain rfl := ok_inj hty hty'
  obtain ⟨bound, hbound, htypes⟩ := bind_eq_ok.mp htypes
  cases htypes
  obtain ⟨hlength, hrefs⟩ := Typing.refs_of_binderTypes hbound href
  refine ⟨hrefs, ?_⟩
  have hlabel : e.label = e.pos :=
    f.numbered_events.labelled e he (by rw [h.kind]; decide)
  have hnames :=
    (ScopeTree.exact_of_ofFunction (tree_of_build hbuild)).declaredBy_arm he h.kind h.node
  rw [hlength, ← hnames, hlabel, length_map]

lemma flow_select {e₀ : Event} {u₀ : Session} (hk : e₀.kind = .step)
    (hsel : e₀.selection? = some sel) (hp : sel.scrutinee.place? (c.meaning sel.label) = some p)
    (hm : c.execute e₀ u₀ = .ok m) : m.flow = u₀.flow := by
  obtain ⟨hpos, arms, loc, hn⟩ := Event.selection?_eq_some hsel
  rw [execute, hk, hn, hpos] at hm
  have hscrut : Prod.snd <$> c.scrutinize sel.label loc sel.scrutinee (u₀.begin loc) = .ok m := hm
  rw [scrutinize_place hp] at hscrut
  obtain ⟨k, hread, rfl⟩ := map_eq_ok.mp hscrut
  cases hread
  exact flow_read

end Functions

/-- An arm that binds by value over a reference hands the loans of the scrutinee to its binders
exactly as far as they are live at its header. For every visit of such a header there is a last one
of its selection before it, and for a loan that the base of the scrutinee has got before the
selection and not given up since, if the scrutinee can be used: (1) the loan is live at the header
exactly if it reaches it, as the text goes; (2) each binder holds the loan afterwards exactly if it
did so before, or if the loan is live at the header and the base holds it there; (3) so it holds the
loan if that is live and the base is not defined again between the selection and the header; (4) if
it holds the loan, that is live up to every use of the binder that no other definition of the binder
precedes. -/
theorem binders_hold_live_loans {program : Program} {f : Function} {options : Options}
    (hbuild : build program f options = .ok c) (hrun : c.run = .ok s) :
    ∃ s₀, c.initial = .ok s₀ ∧ ∀ e u, (e, u) ∈ f.skeleton.visits c s₀ → ∀ a sel p ty,
      c.Opens e a sel p → a.byRef = false →
      c.typing.scrutineeType (c.meaning sel.label) sel.scrutinee sel.type = .ok ty →
      c.typing.table.tyIsRef ty = .ok true →
      ∃ before e₀ u₀ between after m,
        f.skeleton.visits c s₀ = before ++ (e₀, u₀) :: (between ++ (e, u) :: after) ∧
        e₀.selection? = some sel ∧ (∀ v ∈ between, v.1.selection? ≠ some sel) ∧
        c.execute e u = .ok m ∧
        (u₀.flow.refusal? p = none → ∀ A ∈ u₀.loans, ∀ since,
          A.Holds p.base since → since < sel.label →
          (∀ d ∈ c.tree.defsOf p.base, since < d → sel.label ≤ d) →
          ∃ B ∈ u.loans, ∃ B' ∈ m.loans, A.Becomes B ∧ B.Becomes B' ∧
            (B.activeAt e.pos = true ↔ B.Reaches c.tree e.pos) ∧
            ∀ b ∈ c.tree.declaredBy e.pos,
              (B'.Holds b e.pos ↔ B.Holds b e.pos ∨
                B.activeAt e.pos = true ∧ B.heldBy c.tree p.base e.pos = true) ∧
              (B.activeAt e.pos = true →
                (∀ d ∈ c.tree.defsOf p.base, sel.label ≤ d → e.pos ≤ d) → B'.Holds b e.pos) ∧
              (B'.Holds b e.pos → ∀ x ∈ c.tree.usesOf b, e.pos < x →
                (∀ d ∈ c.tree.defsOf b, e.pos < d → x ≤ d) →
                ∀ q, A.start ≤ q → q ≤ x → B'.activeAt q = true)) := by
  obtain ⟨hc, hr, rfl⟩ := build_fields hbuild
  obtain ⟨s₀, s₁, h₀, h₁, -⟩ := run_cases hrun
  have hnone := (initial_fields h₀).1
  have hnested := nested_of_build hbuild
  refine ⟨s₀, h₀, fun e u hu a sel p ty hopens hby hty href => ?_⟩
  obtain ⟨before, e₀, u₀, m₀, between, after, hsplit, hk₀, hsel, hlast, hm₀, hflow⟩ :=
    Function.leads_of_visit hc hr c.function h₁ hu hopens.kind hopens.node
  have htrail := Skeleton.walk_trail hr False c.function.skeleton (fun h => h.elim) h₁
  rw [hsplit] at htrail
  obtain ⟨hbefore, m₀', hm₀', hrest⟩ := htrail.split
  obtain ⟨hbetween, m, hm, -⟩ := hrest.split
  refine ⟨before, e₀, u₀, between, after, m, hsplit, hsel, hlast, hm,
    fun husable A hA since hholds hlt hdefs => ?_⟩
  -- The loan on its way from the selection to the header.
  obtain ⟨hb₀, hexact₀⟩ := hbefore.exact hc hnested (hnone ▸ .nil) (hnone ▸ fun l hl => nomatch hl)
  have hway : c.Trail False ((e₀, u₀) :: between) u₀ u := ⟨.refl _ _, m₀', hm₀', hbetween⟩
  obtain ⟨hb, hexact⟩ := hway.exact hc hnested hb₀ hexact₀
  obtain ⟨B, hB, hAB⟩ := hway.exists_becomes hc hb₀ hA
  have hstep : c.Trail False [(e, u)] u m := .of_execute hm
  obtain ⟨hb', hexact'⟩ := hstep.exact hc hnested hb hexact
  -- The header.
  have husable' : u.flow.refusal? p = none := by
    rw [hflow, flow_select hk₀ hsel hopens.place hm₀]
    exact husable
  have htouch : c.touchable sel u = some p := by simp [touchable, hopens.place, husable']
  rw [execute, hopens.kind, hopens.node, executeNode, htouch] at hm
  obtain ⟨types, htypes, -⟩ := bind_eq_ok.mp hm
  have hevent : e ∈ c.function.events := by
    refine c.function.mem_events_of_skeleton (Skeleton.mem_events_of_visited _ ?_)
    rw [← Skeleton.map_fst_visits hc hr _ h₁ (initial_fields h₀).2.1]
    exact mem_map_of_mem hu
  obtain ⟨hrefs, hlength⟩ := hopens.refs hbuild hevent hty href htypes
  obtain ⟨B', hB', hBB', hiff⟩ := exists_bound_loan hc hb htypes hrefs hlength hby hm hB
  refine ⟨B, hB, B', hB', hAB, hBB', (hexact B hB).activeAt_iff_reaches (hb.proper B hB),
    fun b hmem => ⟨hiff b hmem, fun hactive hkeeps => ?_,
      fun hbound x hx hltx hdefsx q hq hqx => ?_⟩⟩
  · refine (hiff b hmem).mpr (.inr ⟨hactive, Loan.heldBy_iff.mpr ⟨since, hAB.holds hholds, ?_⟩⟩)
    exact fun d hd hd' => hkeeps d hd (hdefs d hd hd')
  · refine (hexact' B' hB').activeAt_of_holds hbound hx hltx hdefsx ?_ hqx
    rw [hBB'.start, hAB.start]
    exact hq

end Context

/-! ### An arm over a reference to an optional text -/

/-- A program with a type of texts that may be missing. -/
def Program.optional : Program where
  types := (TypeTable.empty.run [.ensureString,
    .declareVariant "Opt" (some [⟨"Some", [⟨"0", ⟨1⟩⟩]⟩, ⟨"Nothing", []⟩])]).2

def Arm.peeking : Arm :=
  .mk (some "Some") (.mk [.evaluate (.var "v" .unknown) .unknown] .unknown) ["v"] false .unknown

/-- Looks at an optional text through a reference. -/
def Stmt.peeking : Stmt :=
  .select (.var "r" .unknown) [.peeking, .mk none (.mk [] .unknown) [] false .unknown] none .unknown

/-- Makes such a reference, looks at the text and goes on. -/
def Function.peeking (rest : List Stmt) : Function where
  name := "peeking"
  params := [⟨"o", some ⟨2⟩, false, .unknown⟩]
  body := .mk (.declare "r" none (.borrow (.var "o" .unknown) false .unknown) false .unknown ::
    .peeking :: rest) .unknown

def Selection.peeking : Selection := ⟨.var "r" .unknown, none, 3⟩

def Event.peeking : Event := .step 5 (.arm .peeking (some .peeking))

namespace Context

lemma exists_peek (rest : List Stmt) (test : Session → Session → Binding → Bool)
    (h : ((build .optional (.peeking rest) {} >>= fun c => c.initial >>= fun s₀ =>
      (c, s₀, ·) <$> c.run).toOption.any fun r =>
        ((Expr.var "r" .unknown).place? (r.1.meaning 3)).any fun p =>
        (r.1.typing.scrutineeType (r.1.meaning 3) (.var "r" .unknown) none).toOption.any fun ty =>
        (r.1.tree.declaredBy 5).any fun b =>
          decide
            (r.1.tree.defsOf p.base = [2] ∧ (r.1.typing.table.tyIsRef ty).toOption = some true ∧
            r.1.tree.usesOf b = [6] ∧ r.1.tree.defsOf b = [5]) &&
          ((Function.peeking rest).skeleton.visits r.1 r.2.1).all fun v =>
            (decide (v.1.pos ≠ 3) ||
              decide (v.2.flow.refusal? p = none ∧ ∃ A ∈ v.2.loans, A.Holds p.base 2)) &&
            (decide (v.1.pos ≠ 5) || (r.1.execute v.1 v.2).toOption.any fun m => test v.2 m b)) =
              true) :
    ∃ c s₀ s u m p ty b, build .optional (.peeking rest) {} = .ok c ∧ c.initial = .ok s₀ ∧
      c.run = .ok s ∧ (.peeking, u) ∈ (Function.peeking rest).skeleton.visits c s₀ ∧
      c.Opens .peeking .peeking .peeking p ∧
      c.typing.scrutineeType (c.meaning 3) (.var "r" .unknown) none = .ok ty ∧
      c.typing.table.tyIsRef ty = .ok true ∧ c.execute .peeking u = .ok m ∧
        c.tree.defsOf p.base = [2] ∧
      b ∈ c.tree.declaredBy 5 ∧ c.tree.usesOf b = [6] ∧ c.tree.defsOf b = [5] ∧
      (∀ e₀ u₀, (e₀, u₀) ∈ (Function.peeking rest).skeleton.visits c s₀ → e₀.pos = 3 →
        u₀.flow.refusal? p = none ∧ ∃ A ∈ u₀.loans, A.Holds p.base 2) ∧ test u m b = true := by
  obtain ⟨c, s₀, s, hbuild, h₀, hrun, htest⟩ := exists_initial_run_of_test h
  obtain ⟨p, hp, htest⟩ := (Option.any_eq_true _ _).mp htest
  obtain ⟨ty, hty, htest⟩ := Fault.exists_ok htest
  obtain ⟨b, hb, htest⟩ := any_eq_true.mp htest
  obtain ⟨hfacts, htest⟩ := Bool.and_eq_true_iff.mp htest
  obtain ⟨hdefs, href, huses, hdefsb⟩ := of_decide_eq_true hfacts
  have hvisits := all_eq_true.mp htest
  have hvisited : Event.peeking ∈ (Function.peeking rest).skeleton.visited :=
    mem_cons_of_mem _ (mem_cons_of_mem _ (mem_cons_of_mem _ mem_cons_self))
  obtain ⟨u, hu⟩ := exists_visit hbuild h₀ hrun hvisited
  have hpos : Event.peeking.pos = 5 := rfl
  have hheader := (Bool.and_eq_true_iff.mp (hvisits _ hu)).2
  obtain ⟨m, hm, htest⟩ :=
    Fault.exists_ok (((Bool.or_eq_true _ _).mp hheader).resolve_left (by simp [hpos]))
  refine ⟨c, s₀, s, u, m, p, ty, b, hbuild, h₀, hrun, hu, ⟨rfl, rfl, hp⟩, hty,
    Fault.eq_ok_of_toOption href, hm, hdefs, hb, huses, hdefsb, fun e₀ u₀ hu₀ hpos => ?_, htest⟩
  have hselection := (Bool.and_eq_true_iff.mp (hvisits _ hu₀)).1
  exact of_decide_eq_true (((Bool.or_eq_true _ _).mp hselection).resolve_left (by simp [hpos]))

/-- The reference is used after the selection: the binder gets the loan, which is live up to the
use of the binder. -/
theorem binders_hold_live_loans_peeking : ∃ c s₀ s u m p ty b B,
    build .optional (.peeking [.evaluate (.var "r" .unknown) .unknown]) {} = .ok c ∧
    c.initial = .ok s₀ ∧ c.run = .ok s ∧ c.Opens .peeking .peeking .peeking p ∧
    c.typing.scrutineeType (c.meaning 3) (.var "r" .unknown) none = .ok ty ∧
    c.typing.table.tyIsRef ty = .ok true ∧ c.execute .peeking u = .ok m ∧ b ∈ c.tree.declaredBy 5 ∧
    B ∈ m.loans ∧ B.Holds p.base 2 ∧ B.Holds b 5 ∧ B.start ≤ 6 ∧ B.activeAt 6 = true := by
  obtain ⟨c, s₀, s, u, m, p, ty, b, hbuild, h₀, hrun, hu, hopens, hty, href, hm, hdefs, hb,
    huses, hdefsb, hselection, htest⟩ := exists_peek [.evaluate (.var "r" .unknown) .unknown]
      (fun u _ _ => decide (∀ A ∈ u.loans, A.activeAt 5 = true ∧ A.start ≤ 6)) (by decide +kernel)
  obtain ⟨s₀', h₀', hall⟩ := binders_hold_live_loans hbuild hrun
  obtain rfl := ok_inj h₀ h₀'
  obtain ⟨before, e₀, u₀, between, after, m', hsplit, hsel, -, hm', hheld⟩ :=
    hall .peeking u hu .peeking .peeking p ty hopens rfl hty href
  obtain rfl := ok_inj hm hm'
  obtain ⟨husable, A, hA, hholds⟩ := hselection e₀ u₀
    (by rw [hsplit]; exact mem_append_right _ mem_cons_self)
      (Event.selection?_eq_some hsel).1
  obtain ⟨B, hB, B', hB', hAB, hBB', -, hbinders⟩ := hheld husable A hA 2 hholds (by decide)
    (by rw [hdefs]; decide)
  obtain ⟨hactive, hstart⟩ := of_decide_eq_true htest B hB
  obtain ⟨-, hgets, hlives⟩ := hbinders b hb
  have hbound := hgets hactive (by rw [hdefs]; decide)
  have hstart' : A.start ≤ 6 := hAB.start ▸ hstart
  have hlive :=
    hlives hbound 6 (by simp [huses]) (by decide) (by rw [hdefsb]; decide) 6 hstart' le_rfl
  exact ⟨c, s₀, s, u, m, p, ty, b, B', hbuild, h₀, hrun, hopens, hty, href, hm, hb, hB',
    hBB'.holds (hAB.holds hholds), hbound, hBB'.start ▸ hstart, hlive⟩

/-- The reference is not used after the selection: it holds a loan there, but the binder does not
get the loan, which is not live where the binder is used. -/
theorem binder_without_loan_peeking : ∃ c s₀ s u₀ A u m p ty b,
    build .optional (.peeking []) {} = .ok c ∧ c.initial = .ok s₀ ∧ c.run = .ok s ∧
    (.step 3 (.stmt .peeking), u₀) ∈ (Function.peeking []).skeleton.visits c s₀ ∧
    u₀.flow.refusal? p = none ∧ A ∈ u₀.loans ∧ A.Holds p.base 2 ∧ c.tree.defsOf p.base = [2] ∧
    (.peeking, u) ∈ (Function.peeking []).skeleton.visits c s₀ ∧
      c.Opens .peeking .peeking .peeking p ∧
    c.typing.scrutineeType (c.meaning 3) (.var "r" .unknown) none = .ok ty ∧
    c.typing.table.tyIsRef ty = .ok true ∧ c.execute .peeking u = .ok m ∧
    b ∈ c.tree.declaredBy 5 ∧ c.tree.usesOf b = [6] ∧
    ∀ B ∈ m.loans, ¬B.Holds b 5 ∧ B.activeAt 6 = false := by
  obtain ⟨c, s₀, s, u, m, p, ty, b, hbuild, h₀, hrun, hu, hopens, hty, href, hm, hdefs, hb,
    huses, -, hselection, htest⟩ := exists_peek []
      (fun _ m b => decide (∀ B ∈ m.loans, ¬B.Holds b 5 ∧ B.activeAt 6 = false)) (by decide +kernel)
  obtain ⟨u₀, hu₀⟩ := exists_visit (e := .step 3 (.stmt .peeking)) hbuild h₀ hrun
    (mem_cons_of_mem _ mem_cons_self)
  obtain ⟨husable, A, hA, hholds⟩ := hselection _ u₀ hu₀ rfl
  exact ⟨c, s₀, s, u₀, A, u, m, p, ty, b, hbuild, h₀, hrun, hu₀, husable, hA, hholds, hdefs,
    hu, hopens, hty, href, hm, hb, huses, of_decide_eq_true htest⟩

end Context

end Ownership
