import Ownership.Proofs.Control.Log
import Ownership.Proofs.Loans.Paths
import Ownership.Proofs.Loops.Rounds

/-!
# Windows have no gaps

The window of a loan is one interval, from its start or the start of its loop up to its end. Each
change of loans keeps it so and only makes the interval wider. This holds at every moment of a run,
whether the run completes or not: at the stations of its log, and along the steps that an event
takes.
-/

namespace Ownership

namespace Loan

variable {t : ScopeTree} {b : Binding} {since p : Int} {l l' l'' : Loan}

/-! ### Single loans -/

/-- The first position of a window: the start of the loan, or that of its loop if it comes
before. -/
def first (l : Loan) : Int := l.loop.elim l.start fun m => min l.start m.start

lemma first_le_iff : l.first ≤ p ↔ l.start ≤ p ∨ ∃ m ∈ l.loop, m.start ≤ p := by
  unfold first
  cases l.loop with
  | none => simp
  | some m => simp

/-- Whether a loan ends behind its start, and its loop ends between the two, so that it is live in a
single interval. -/
structure Contiguous (l : Loan) : Prop where
  start_le_stop : l.start ≤ l.stop
  loop : ∀ m ∈ l.loop, l.start ≤ m.stop ∧ m.stop ≤ l.stop
  active : ∀ p, l.activeAt p = true ↔ l.first ≤ p ∧ p ≤ l.stop

lemma Proper.contiguous (hp : l.Proper) (hexact : l.Exact t) : l.Contiguous where
  start_le_stop := hp.start_le_stop
  loop m hm := ⟨hexact.start_le m hm, hp.loop_le_stop m hm⟩
  active p := by rw [activeAt_iff_interval hp hexact.start_le, first_le_iff]

/-- Whether a loan becomes another one with a wider window. -/
structure Widens (l l' : Loan) : Prop where
  id : l'.id = l.id
  place : l'.place = l.place
  kind : l'.kind = l.kind
  start : l'.start = l.start
  first : l'.first ≤ l.first
  stop : l.stop ≤ l'.stop

lemma Widens.refl (l : Loan) : l.Widens l := ⟨rfl, rfl, rfl, rfl, le_rfl, le_rfl⟩

lemma Widens.trans (h : l.Widens l') (h' : l'.Widens l'') : l.Widens l'' where
  id := h'.id.trans h.id
  place := h'.place.trans h.place
  kind := h'.kind.trans h.kind
  start := h'.start.trans h.start
  first := h'.first.trans h.first
  stop := h.stop.trans h'.stop

lemma exists_loop_attach {k : LoopRange} (hk : k ∈ l.loop) :
    ∃ m ∈ (l.attach t b since).loop, m.start ≤ k.start := by
  rcases attach_cases t b since l with he | ⟨-, -, hloop⟩
  · exact ⟨k, he.symm ▸ hk, le_rfl⟩
  · -- Of the loop that was there and the one of the holder, the outermost is kept.
    rw [hloop, hk]
    cases (t.holderWindow b since).2 with
    | none => exact ⟨k, rfl, le_rfl⟩
    | some m =>
      simp only [ScopeTree.outermost]
      split
      · rename_i hlt
        exact ⟨m, rfl, hlt.le⟩
      · exact ⟨k, rfl, le_rfl⟩

lemma Widens.attach (l : Loan) (t : ScopeTree) (b : Binding) (since : Int) :
    l.Widens (l.attach t b since) where
  id := id_attach
  place := place_attach ..
  kind := kind_attach
  start := start_attach
  first := by
    rw [first_le_iff, start_attach]
    refine (first_le_iff.mp (le_refl l.first)).imp_right ?_
    rintro ⟨k, hk, hle⟩
    obtain ⟨m, hm, hmk⟩ : ∃ m ∈ (l.attach t b since).loop, m.start ≤ k.start :=
      exists_loop_attach hk
    exact ⟨m, hm, hmk.trans hle⟩
  stop := le_stop_attach

end Loan

/-! ### Sessions -/

namespace Session

variable {s m s' : Session}

/-- Whether all loans of a session are live in single intervals. -/
def Contiguous (s : Session) : Prop := ∀ l ∈ s.loans, l.Contiguous

/-- Whether the loans of a session are found in another one, with wider windows. -/
def Widens (s s' : Session) : Prop :=
  ∀ ⦃i : Nat⦄ ⦃l : Loan⦄, s.loans[i]? = some l → ∃ l', s'.loans[i]? = some l' ∧ l.Widens l'

lemma Widens.of_eq (h : s'.loans = s.loans) : s.Widens s' :=
  fun _ l hl => ⟨l, h ▸ hl, .refl l⟩

lemma Widens.trans (h : s.Widens m) (h' : m.Widens s') : s.Widens s' := by
  intro i l hl
  obtain ⟨k, hk, hlk⟩ := h hl
  obtain ⟨l', hl', hkl'⟩ := h' hk
  exact ⟨l', hl', hlk.trans hkl'⟩

end Session

namespace Context

variable {c : Context} {e : Event} {pos : Int} {as : List (Access × Session)} {H : List Station}
  {s s' u v : Session}

lemma Deals.widens (hc : c.tracksLoans = true) (h : c.Deals pos as s s') : s.Widens s' := by
  refine h.induct hc (P := fun ls => s.Widens { s with loans := ls }) ?_ (.of_eq rfl)
  intro ls ls' hchange hs
  refine hs.trans fun i l hl => ?_
  cases hchange with
  | grant place kind span hfree =>
    have hlt := (List.getElem?_eq_some_iff.mp hl).1
    exact ⟨l, (List.getElem?_append_left hlt).trans hl, .refl l⟩
  | attach held b hlive =>
    refine ⟨_, by rw [List.getElem?_map, hl, Option.map_some], ?_⟩
    split
    · exact .attach l c.tree b pos
    · exact .refl l

lemma Deals.exact (hc : c.tracksLoans = true) (ht : c.tree.Nested) (h : c.Deals pos as s s')
    (hb : Loan.Booked s.loans) (hs : ∀ l ∈ s.loans, l.Exact c.tree) :
    ∀ l ∈ s'.loans, l.Exact c.tree :=
  (h.induct hc (P := fun ls => Loan.Booked ls ∧ ∀ l ∈ ls, l.Exact c.tree)
    (fun _ _ hchange h => ⟨h.1.change hchange, Loan.exact_change ht h.1 hchange h.2⟩) ⟨hb, hs⟩).2

/-- Whether the loans of a session are in order and have grown from all those of a log. -/
structure Grown (c : Context) (_ : Int) (H : List Station) (s : Session) : Prop where
  booked : Loan.Booked s.loans
  exact : ∀ l ∈ s.loans, l.Exact c.tree
  widens : ∀ x ∈ H, x.session.Widens s

namespace Grown

lemma contiguous (h : c.Grown pos H s) : s.Contiguous :=
  fun l hl => (h.booked.proper l hl).contiguous (h.exact l hl)

lemma of_deals (hc : c.tracksLoans = true) (ht : c.tree.Nested) (h : c.Grown pos H s)
    (hdeals : c.Deals e.pos as s s') : c.Grown pos H s' where
  booked := hdeals.booked hc h.booked
  exact := hdeals.exact hc ht h.booked h.exact
  widens x hx := (h.widens x hx).trans (hdeals.widens hc)

lemma past {p q : Int} (h : c.Grown p H s) {x : Station} (hx : x.session.Widens s)
    (hs' : s'.loans = s.loans) : c.Grown q (H ++ [x]) s' where
  booked := hs' ▸ h.booked
  exact := hs' ▸ h.exact
  widens y hy := by
    refine .trans ?_ (.of_eq hs')
    rcases List.mem_append.mp hy with hy | hy
    · exact h.widens y hy
    · rwa [List.mem_singleton.mp hy]

lemma execute (hc : c.tracksLoans = true) (ht : c.tree.Nested) {q : Int} (h : c.Grown pos H s)
    (hexec : c.execute e s = .ok s') : c.Grown q (H ++ [.visit e s]) s' := by
  obtain ⟨as, hdeals, -⟩ := deals_execute hc h.booked hexec
  exact (h.of_deals hc ht hdeals).past (hdeals.widens hc) rfl

end Grown

theorem maintains_grown (hc : c.tracksLoans = true) (ht : c.tree.Nested) : c.Maintains c.Grown where
  step _ _ _ h hexec := h.execute hc ht hexec
  enter _ _ h hexec := h.execute hc ht hexec
  exit _ _ _ _ _ h hexec := h.execute hc ht hexec
  finish _ h := h.past (.of_eq rfl) rfl
  shift _ _ _ h := ⟨h.booked, h.exact, h.widens⟩
  resume _ h' := ⟨h'.booked, h'.exact, h'.widens⟩
  merge hf _ := ⟨hf.booked, hf.exact, hf.widens⟩
  replay _ h := ⟨h.booked, h.exact, h.widens⟩

/-! ### Steps of an event -/

/-- Whether steps of an event lead from a session to another one, with the loans that are at
hand. -/
def Steps (c : Context) (e : Event) (held : List Nat) (u : Session) (held' : List Nat)
    (v : Session) :
    Prop :=
  ∃ as, c.Course e.pos (fun b => c.Names e (.ofBinding b)) as held u held' v

lemma exists_steps_execute (h : c.execute e u = .ok s') :
    ∃ held m, c.Steps e [] u held m ∧ s'.loans = m.loans := by
  by_cases hk : e.kind = .step
  · obtain ⟨as, held, m, hcourse, -, rfl⟩ := runs_execute hk h
    refine ⟨held, m, ⟨as, hcourse⟩, ?_⟩
    split
    · exact loans_leaveFunction e.pos m
    · rfl
  · -- Neither the start nor the end of a scope touches a loan.
    exact ⟨[], u, ⟨[], .refl [] u⟩, (idle_execute hk h).loans⟩

lemma exists_steps_asks {rs : List Request} {x : Expr} (hx : x ∈ e.node.expressions)
    (hrs : ∀ r ∈ rs, r.Based (c.meaning e.pos) x.vars) {a : Access} (h : c.Asks e.pos rs s a v)
    (held : List Nat) : ∃ held', c.Steps e held s held' v := by
  have hnamed : ∀ name ∈ x.vars, ∀ b, c.meaning e.pos name = some b → c.Names e (.ofBinding b) :=
    fun name hname b hb => .inl ⟨name, List.mem_flatMap.mpr ⟨x, hx, hname⟩, hb⟩
  induction rs generalizing s held with
  | nil => cases h
  | cons r rest ih =>
    rcases h with ⟨-, rfl⟩ | ⟨k, hk, h⟩
    · exact ⟨held, [], .refl held v⟩
    · obtain ⟨b, held₁, -, hfirst, -⟩ := course_perform hnamed (hrs r List.mem_cons_self) hk held
      obtain ⟨held₂, as, hrest⟩ := ih (fun r hr => hrs r (List.mem_cons_of_mem _ hr)) h held₁
      exact ⟨held₂, _, hfirst.append hrest⟩

/-- Steps of an event lead to each access that it tries, whether the event completes or not. -/
lemma exists_steps_tries {a : Access} (h : c.Tries e u a v) : ∃ held, c.Steps e [] u held v := by
  cases h.trial with
  | asked hx hrs hasks =>
    obtain ⟨held, as, hcourse⟩ := exists_steps_asks hx hrs hasks []
    exact ⟨held, _, (Course.begin [] u _).append hcourse⟩
  | @stored target value _ _ _ hn hk _ _ hv =>
    obtain ⟨as, held, hcourse, -⟩ := course_requests (e := e) (x := value)
      (by simp [hn, Node.expressions, Stmt.expressions]) (Expr.based_requests true value) hk
    exact ⟨held, as, hv ▸ hcourse⟩
  | inspected _ hv => exact ⟨[], [], hv ▸ .begin [] u _⟩
  | header _ htries =>
    obtain ⟨p, types, takes, -, -, -, hcase⟩ := htries
    have hfill : c.Course e.pos (fun b => c.Names e (.ofBinding b)) [] [] u [] _ :=
      course_fillBinders [] types u
    rcases hcase with ⟨-, -, rfl⟩ | ⟨-, -, -, hv⟩
    · exact ⟨[], [], hfill⟩
    · obtain ⟨as, held, htake, -⟩ := course_takeApart (fun b => c.Names e (.ofBinding b)) hv []
      exact ⟨held, _, hfill.append htake⟩

/-! ### Whole functions -/

lemma grown_log {program : Program} {f : Function} {options : Options}
    (hbuild : build program f options = .ok c) (h : c.initial = .ok s) :
    Carries c.tree c.Grown [] c.log (c.function.skeleton.walk c s) c.function.stop := by
  obtain ⟨hc, -, hf⟩ := build_fields hbuild
  have hnone := (initial_fields h).1
  refine (maintains_grown hc (nested_of_build hbuild)).carries_log ?_ h
    ⟨hnone ▸ .nil, (hnone ▸ fun l hl => nomatch hl), fun x hx => nomatch hx⟩
  rw [hf]
  exact ScopeTree.nests_of_ofFunction (tree_of_build hbuild)

lemma exists_grown {H T : List Station} {x : Station} (h : Along c.tree c.Grown [] (H ++ x :: T)) :
    ∃ p, c.Grown p H x.session := by
  have hx := h.holds
  cases x with
  | visit e s => exact ⟨e.pos, hx⟩
  | finish pos s =>
    obtain ⟨p, -, -, hp⟩ := hx
    exact ⟨p, hp⟩

/-- At every moment of a run, each loan ends behind its start, its loop ends between the two, and
it is live in a single interval. Along the run the intervals only become wider: from station to
station of the log up to the end, and from step to step of each event, also of one that does not
complete. The steps of an event lead to all accesses that it tries and to the session that it
leaves. -/
theorem loan_windows_contiguous {program : Program} {f : Function} {options : Options}
    (hbuild : build program f options = .ok c) :
    (∀ H x T, c.log = H ++ x :: T → x.session.Contiguous ∧ ∀ y ∈ H, y.session.Widens x.session) ∧
    (∀ s, c.run = .ok s → s.Contiguous ∧ ∀ y ∈ c.log, y.session.Widens s) ∧
    ∀ e u, .visit e u ∈ c.log →
      (∀ a v, c.Tries e u a v → ∃ held, c.Steps e [] u held v) ∧
      (∀ s', c.execute e u = .ok s' → ∃ held m, c.Steps e [] u held m ∧ s'.loans = m.loans) ∧
      ∀ held v held' w, c.Steps e [] u held v → c.Steps e held v held' w →
        v.Contiguous ∧ v.Widens w := by
  obtain ⟨hc, -, -⟩ := build_fields hbuild
  have hall : ∀ H x T, c.log = H ++ x :: T → ∃ p, c.Grown p H x.session := by
    intro H x T hlog
    -- A run that fails to begin has an empty log.
    cases h₀ : c.initial with
    | error fault =>
      rw [log, h₀] at hlog
      exact absurd hlog.symm (by simp [Fault.seen])
    | ok s₀ => exact exists_grown (hlog ▸ (grown_log hbuild h₀).along)
  refine ⟨fun H x T hlog => ?_, fun s hrun => ?_, fun e u hu => ?_⟩
  · obtain ⟨p, hp⟩ := hall H x T hlog
    exact ⟨hp.contiguous, hp.widens⟩
  · obtain ⟨s₀, s₁, h₀, h₁, hexit⟩ := run_cases hrun
    have hend : c.Grown c.function.stop c.log s₁ := (grown_log hbuild h₀).last s₁ h₁
    have hloans : s.loans = s₁.loans :=
      (idle_execute (e := .exit 0 c.function.stop .function) EventKind.noConfusion hexit).loans
    refine ⟨fun l hl => hend.contiguous l (hloans ▸ hl), fun y hy => ?_⟩
    exact (hend.widens y hy).trans (.of_eq hloans)
  · obtain ⟨H, T, hlog⟩ := List.append_of_mem hu
    obtain ⟨p, hp⟩ := hall H _ T hlog
    have hstart : c.Grown p H u := hp
    refine ⟨fun a v => exists_steps_tries, fun s' => exists_steps_execute, ?_⟩
    rintro held v held' w ⟨as, huv⟩ ⟨bs, hvw⟩
    obtain ⟨hdeals, hlive⟩ := huv.deals hc hstart.booked fun _ _ hid => absurd hid List.not_mem_nil
    have hv := hstart.of_deals hc (nested_of_build hbuild) hdeals
    exact ⟨hv.contiguous, (hvw.deals hc hv.booked hlive).1.widens hc⟩

/-- A reference that is handed around a loop: its window begins with the loop, before the loan
starts. -/
theorem loan_windows_contiguous_repoint : ∃ c s l, build { types := .texts } .repoint {} = .ok c ∧
    c.run = .ok s ∧ l ∈ s.loans ∧ l.first < l.start ∧ l.start < l.stop ∧
    ∀ p, l.activeAt p = true ↔ l.first ≤ p ∧ p ≤ l.stop := by
  have hok : ((build { types := .texts } .repoint {} >>= run).toOption.any fun s =>
      decide (∃ l ∈ s.loans, l.first < l.start ∧ l.start < l.stop)) = true := by decide +kernel
  obtain ⟨s, hs, htest⟩ := Fault.exists_ok hok
  obtain ⟨c, hbuild, hrun⟩ := bind_eq_ok.mp hs
  obtain ⟨l, hl, hfirst, hstop⟩ := of_decide_eq_true htest
  obtain ⟨-, hend, -⟩ := loan_windows_contiguous hbuild
  exact ⟨c, s, l, hbuild, hrun, hl, hfirst, hstop, ((hend s hrun).1 l hl).active⟩

end Context

end Ownership
