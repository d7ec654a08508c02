import Ownership.Proofs.Loops.Rounds

/-!
# Loops at their fixpoint

Walks are monotone where they refuse nothing: from smaller states a walk refuses nothing either,
and it ends in smaller states. The second walk of a loop adds nothing to the merge in which it
begins, so the loop leaves its fixpoint behind, and every further round from there stays below it.
-/

namespace Ownership

lemma Flow.Below.of_alike {f g : Flow} (h : f.Alike g) : g.Below f :=
  fun hg => ⟨h.returned.symm.trans hg, fun q => (h.states q).le⟩

namespace Context

variable {c : Context} {s s' m t : Session}

/-! ### Sessions in smaller states -/

/-- Whether a session can stand for another one in a walk that refuses nothing: it is reachable
exactly if the other one is, and then no place is in a larger state. -/
structure Eases (c : Context) (s t : Session) : Prop where
  typed : c.LoansTyped t
  clean : t.Clean
  returned : t.flow.returned = s.flow.returned
  below : t.flow.Below s.flow

namespace Eases

lemma under (h : c.Eases s t) (hs : s.flow.returned = false) : t.Under s :=
  (h.below (h.returned.trans hs)).2

lemma congr {t' : Session} (h : c.Eases s t) (hs : s'.flow = s.flow) (ht : t'.flow = t.flow)
    (hloans : t'.loans = t.loans) (hfind : t'.findings = t.findings) : c.Eases s' t' where
  typed := by
    unfold LoansTyped
    rw [hloans]
    exact h.typed
  clean := by
    unfold Session.Clean
    rw [hfind]
    exact h.clean
  returned := by rw [ht, hs, h.returned]
  below := by
    rw [ht, hs]
    exact h.below

lemma merge {u v : Session} (h : c.Eases s t) (h' : c.Eases u v) :
    c.Eases (u.withFlow (s.flow.merge u.flow)) (v.withFlow (t.flow.merge v.flow)) where
  typed := h'.typed
  clean := h'.clean
  returned := by simp [Session.withFlow, h.returned, h'.returned]
  below := h.below.merge h'.below

variable (hc : c.tracksLoans = true)

include hc

lemma of_passes {e : Event} (h : c.Eases s t) (hexec : c.execute e s = .ok s')
    (hadm : c.Admits e s.flow) (hclean : s'.Clean) (hp' : t.Passes (c.deeds e)) :
    ∃ t', c.execute e t = .ok t' ∧ c.Eases s' t' := by
  have he := performs hc e
  obtain ⟨hready, hp⟩ := he.passes hexec hadm hclean
  obtain ⟨t', ht'⟩ := hready t h.typed hp'
  -- Whether an event returns depends on the event alone.
  have hret : t'.flow.returned = s'.flow.returned := by
    rw [he.returned ht', he.returned hexec, h.returned]
  refine ⟨t', ht', he.loansTyped ht' h.typed, he.clean ht' h.clean hp', hret, fun hgo => ?_⟩
  have hs' : s'.flow.returned = false := hret.symm.trans hgo
  have hs : s.flow.returned = false := by
    rw [he.returned hexec, Bool.or_eq_false_iff] at hs'
    exact hs'.1
  exact ⟨hs', (h.under hs).of_leaves (he.leaves ht' hp') (he.leaves hexec hp)⟩

/-- An event that refuses nothing refuses nothing in smaller states, and leaves smaller ones. -/
lemma execute {e : Event} (h : c.Eases s t) (hexec : c.execute e s = .ok s')
    (hadm : c.Admits e s.flow) (hs : s.flow.returned = false) (hclean : s'.Clean) :
    ∃ t', c.execute e t = .ok t' ∧ c.Eases s' t' := by
  obtain ⟨-, hp⟩ := (performs hc e).passes hexec hadm hclean
  exact h.of_passes hc hexec hadm hclean (hp.of_under (h.under hs))

/-- The end of a scope passes in every state, also where it is not reached. -/
lemma exit {start stop : Int} {node : Node} (h : c.Eases s t)
    (hexec : c.execute (.exit start stop node) s = .ok s') (hclean : s'.Clean) :
    ∃ t', c.execute (.exit start stop node) t = .ok t' ∧ c.Eases s' t' := by
  refine h.of_passes hc hexec (fun p hp => nomatch hp) hclean fun q => ?_
  have hforget : ∀ (bs : List Binding) x, Deed.Passes q (bs.map .forget) x := by
    intro bs
    induction bs with
    | nil => exact fun x => trivial
    | cons b bs ih => exact fun x => ⟨trivial, ih _⟩
  unfold deeds
  dsimp only [Event.exit]
  split
  · exact hforget _ _
  · trivial

end Eases

end Context

namespace Skeleton

variable {c : Context}

lemma walk_loop_of_rounds (hr : c.replays = 1) {pos : Int} {test : Expr} {body : Block} {loc : Span}
    {inner : Skeleton} {s m s₁ m' s₂ : Session} (hm : c.execute (.test pos test body loc) s = .ok m)
    (h₁ : inner.walk c m = .ok s₁)
    (hm' : c.execute (.test pos test body loc)
      { s₁ with flow := m.flow.merge s₁.flow, replay := s₁.replay + 1 } = .ok m')
    (h₂ : inner.walk c m' = .ok s₂) : (loop pos test body loc inner).walk c s =
      .ok { s₂ with flow := (m.flow.merge s₁.flow).merge s₂.flow, replay := s₁.replay } := by
  rw [walk, hr]
  refine bind_eq_ok.mpr ⟨m, hm, bind_eq_ok.mpr ⟨s₁, h₁, ?_⟩⟩
  exact bind_eq_ok.mpr ⟨s₂, bind_eq_ok.mpr ⟨m', hm', h₂⟩, rfl⟩

/-- A walk that refuses nothing refuses nothing in smaller states, and leaves smaller ones. -/
theorem Clears.eases (hc : c.tracksLoans = true) (hr : c.replays = 1) {k : Skeleton}
    {s s' t : Session} (h : Clears c k s s') (hs : s.flow.returned = false) (heases : c.Eases s t) :
    ∃ t', k.walk c t = .ok t' ∧ c.Eases s' t' := by
  induction h generalizing t with
  | done s => exact ⟨t, rfl, heases⟩
  | event h hadm hclean => exact heases.execute hc h hadm hs hclean
  | scope henter hm _ _ hexit hs' ih =>
    obtain ⟨u, hu, hmu⟩ := heases.execute hc henter (fun p hp => nomatch hp) hs hm
    obtain ⟨v, hv, hmv⟩ := ih (Context.returned_execute rfl henter hs) hmu
    obtain ⟨t', ht', heases'⟩ := hmv.exit hc hexit hs'
    exact ⟨t', bind_eq_ok.mpr ⟨u, hu, bind_eq_ok.mpr ⟨v, hv, ht'⟩⟩, heases'⟩
  | @noted pos _ _ _ _ ih =>
    obtain ⟨u, hu, hmu⟩ := ih hs heases
    exact ⟨u.snapshot pos, bind_eq_ok.mpr ⟨u, hu, rfl⟩, hmu.congr rfl rfl rfl rfl⟩
  | stop _ _ hret ih =>
    obtain ⟨u, hu, hmu⟩ := ih hs heases
    refine ⟨u, bind_eq_ok.mpr ⟨u, hu, ?_⟩, hmu⟩
    rw [hmu.returned, hret]
    rfl
  | seq _ _ hret _ ih ih' =>
    obtain ⟨u, hu, hmu⟩ := ih hs heases
    obtain ⟨t', ht', heases'⟩ := ih' hret hmu
    refine ⟨t', bind_eq_ok.mpr ⟨u, hu, ?_⟩, heases'⟩
    rw [hmu.returned, hret]
    exact ht'
  | @fork _ _ s s₁ _ _ _ _ ih₁ ih₂ =>
    obtain ⟨t₁, ht₁, heases₁⟩ := ih₁ hs heases
    -- The second side begins in the states before the fork, with the loans of the first one.
    have hback : c.Eases (s₁.withFlow s.flow) (t₁.withFlow t.flow) :=
      ⟨heases₁.typed, heases₁.clean, heases.returned, heases.below⟩
    obtain ⟨t₂, ht₂, heases₂⟩ := ih₂ hs hback
    exact ⟨_, bind_eq_ok.mpr ⟨t₁, ht₁, bind_eq_ok.mpr ⟨t₂, ht₂, rfl⟩⟩,
      heases₁.merge heases₂⟩
  | @loop pos test body loc inner s m s₁ m' s₂ hm hmclean _ _ hm' hm'clean _ _ ih₁ ih₂ =>
    have htest : ∀ f, c.Admits (.test pos test body loc) f := fun f p hp => nomatch hp
    have hmret : m.flow.returned = false := Context.returned_execute rfl hm hs
    obtain ⟨hjret, -⟩ := Flow.below_merge_left m.flow s₁.flow hmret
    obtain ⟨u, hu, hmu⟩ := heases.execute hc hm (htest _) hs hmclean
    obtain ⟨t₁, ht₁, heases₁⟩ := ih₁ hmret hmu
    have hjoin := hmu.merge heases₁
    have hstart : c.Eases { s₁ with flow := m.flow.merge s₁.flow, replay := s₁.replay + 1 }
        { t₁ with flow := u.flow.merge t₁.flow, replay := t₁.replay + 1 } :=
          hjoin.congr rfl rfl rfl rfl
    obtain ⟨u', hu', hmu'⟩ := hstart.execute hc hm' (htest _) hjret hm'clean
    obtain ⟨t₂, ht₂, heases₂⟩ := ih₂ (Context.returned_execute rfl hm' hjret) hmu'
    exact ⟨_, walk_loop_of_rounds hr hu ht₁ hu' ht₂, (hjoin.merge heases₂).congr rfl rfl rfl rfl⟩

end Skeleton

namespace Context

variable {c : Context}

/-! ### Loops -/

/-- Walks the test and the body of a loop once. -/
def round (c : Context) (p : Int) (test : Expr) (body : Block) (loc : Span) (s : Session) :
    Except Fault Session :=
  c.inspect p loc test (s.begin loc) >>= c.walkBlock (p + 1) body

/-- The session in which a loop is walked again, if its first walk begins in the first session
behind the test and ends in the second one. -/
def rejoin (m s : Session) : Session :=
  { s with flow := m.flow.merge s.flow, replay := s.replay + 1 }

lemma round_eq {p : Int} {test : Expr} {body : Block} {loc : Span} {s : Session}
    (hs : s.flow.returned = false) : c.round p test body loc s =
      c.execute (.test p test body loc) s >>= (body.skeleton .loopBody (p + 1)).walk c := by
  change (c.execute (.test p test body loc) s >>= _) = _
  cases h : c.execute (.test p test body loc) s with
  | error fault => rfl
  | ok m => exact walkBlock_eq .loopBody (p + 1) body m (returned_execute rfl h hs)

/-- If no use is refused in the two walks of a loop, then the second walk ends where it is not
reached, or in states that are at most those of the merge in which it began. So the states behind
the loop are those of the merge. From there every further round, whatever the loans are, refuses no
use either and ends where it is not reached or in states that are at most those behind the loop. -/
theorem loop_at_fixpoint {program : Program} {f : Function} {options : Options}
    (hbuild : build program f options = .ok c) {p : Int} {test : Expr} {body : Block} {loc : Span}
    {s s' : Session} (h : c.walkStmt p (.loop test body loc) s = .ok s')
    (hs : s.flow.returned = false) (hclean : s'.Clean) :
    ∃ m s₁ s₂, c.inspect p loc test (s.begin loc) = .ok m ∧ c.walkBlock (p + 1) body m = .ok s₁ ∧
      c.round p test body loc (rejoin m s₁) = .ok s₂ ∧
      s₂.flow.Below (rejoin m s₁).flow ∧ (rejoin m s₁).flow.Alike s'.flow ∧
      (c.LoansTyped s → c.LoansTyped s') ∧
      ∀ t, c.LoansTyped t → t.Clean → s'.flow.Alike t.flow →
        ∃ t', c.round p test body loc t = .ok t' ∧ t'.Clean ∧ t'.flow.Below s'.flow := by
  obtain ⟨hc, hr, -⟩ := build_fields hbuild
  obtain ⟨hguarded, hguards⟩ := Stmt.guarded_skeleton c p (.loop test body loc)
  rw [walkStmt_eq p _ s hs] at h
  have hclears := Skeleton.clears_of_walk hc hr _ hguarded h (Skeleton.admits_nil hguards _) hclean
  -- Sessions that are typed ease themselves, which gives the types of the loans behind the loop.
  have hagain := hclears.eases (t := s) hc hr hs
  cases hclears with | noted hclears =>
  cases hclears with | @loop _ _ _ _ _ _ m s₁ m' s₂ hm hmclean h₁ hfirst hm' hm'clean h₂ hsecond =>
  have hmret : m.flow.returned = false := returned_execute rfl hm hs
  obtain ⟨hjret, -⟩ := Flow.below_merge_left m.flow s₁.flow hmret
  have hjoin : (rejoin m s₁).flow.Alike ((rejoin m s₁).flow.merge s₂.flow) :=
    Skeleton.alike_join hc hm hmclean hfirst rfl hm' hm'clean hsecond hs
  have hbelow : s₂.flow.Below (rejoin m s₁).flow :=
    (Flow.below_merge_right (rejoin m s₁).flow s₂.flow).trans (.of_alike hjoin)
  refine ⟨m, s₁, s₂, hm, ?_, ?_, hbelow, hjoin, fun htyped => ?_, fun t htyped htclean halike => ?_⟩
  · rw [walkBlock_eq .loopBody (p + 1) body m hmret]
    exact h₁
  · rw [round_eq hjret]
    exact bind_eq_ok.mpr ⟨m', hm', h₂⟩
  · have hsclean : s.Clean := hmclean.of_prefix ((performs hc _).grows hm)
    obtain ⟨t', ht', heases⟩ := hagain ⟨htyped, hsclean, rfl, .refl _⟩
    rw [ok_inj h ht']
    exact heases.typed
  · -- A further round begins as the second one did, which refuses nothing.
    have hsame : (rejoin m s₁).flow.Alike t.flow := hjoin.trans halike
    obtain ⟨u, hu, hmu⟩ := Eases.execute hc ⟨htyped, htclean, hsame.returned, .of_alike hsame⟩ hm'
      (fun p hp => nomatch hp) hjret hm'clean
    obtain ⟨t', ht', heases⟩ := hsecond.eases hc hr (returned_execute rfl hm' hjret) hmu
    refine ⟨t', ?_, heases.clean, heases.below.trans (Flow.below_merge_right _ _)⟩
    rw [round_eq (hsame.returned.trans hjret)]
    exact bind_eq_ok.mpr ⟨u, hu, ht'⟩

end Context

/-! ### A loop that gives away what it fills -/

def Block.refilling : Block :=
  .mk [.assign (.var "x" .unknown) (.literal (.text "a") .unknown) .unknown,
    .declare "y" none (.var "x" .unknown) false .unknown] .unknown

/-- Declares a text without a value, and fills it in each round of a loop to give it away. -/
def Function.refilling : Function where
  name := "refill"
  params := [⟨"c", some ⟨2⟩, false, .unknown⟩]
  body := .mk [.declare "x" (some ⟨1⟩) .absent true .unknown,
    .loop (.var "c" .unknown) .refilling .unknown] .unknown

namespace Context

/-- The text is not initialized in the first round and moved in all others. -/
theorem loop_at_fixpoint_refilling : ∃ c s s' t' q,
    build { types := .texts } .refilling {} = .ok c ∧
    c.walkStmt 3 (.loop (.var "c" .unknown) .refilling .unknown) s = .ok s' ∧
    s.flow.returned = false ∧ s'.Clean ∧ s.flow.stateOf q = .uninit ∧ s'.flow.stateOf q = .moved ∧
    c.round 3 (.var "c" .unknown) .refilling .unknown s' = .ok t' ∧ t'.Clean ∧
    t'.flow.Below s'.flow := by
  have hok : ((build { types := .texts } .refilling {} >>= fun c => c.initial >>= fun s₀ =>
      c.walkStmt 2 (.declare "x" (some ⟨1⟩) .absent true .unknown) s₀ >>= fun s =>
        (c, s, ·) <$> c.walkStmt 3 (.loop (.var "c" .unknown) .refilling .unknown) s).toOption.any
          fun r =>
          decide (r.2.1.flow.returned = false ∧ r.2.1.loans = [] ∧ r.2.2.Clean ∧
            ∃ e ∈ r.2.2.flow.states.entries, r.2.1.flow.stateOf e.1 = .uninit ∧
              r.2.2.flow.stateOf e.1 = .moved)) = true := by
    decide +kernel
  obtain ⟨⟨c, s, s'⟩, hall, htest⟩ := Fault.exists_ok hok
  obtain ⟨c, hbuild, hall⟩ := bind_eq_ok.mp hall
  obtain ⟨s₀, -, hall⟩ := bind_eq_ok.mp hall
  obtain ⟨s, -, hall⟩ := bind_eq_ok.mp hall
  obtain ⟨s', hwalk, heq⟩ := map_eq_ok.mp hall
  obtain ⟨rfl, rfl, rfl⟩ : _ ∧ _ ∧ _ := by simpa using heq
  obtain ⟨hs, hloans, hclean, e, -, hentry, hexit⟩ := of_decide_eq_true htest
  obtain ⟨m, s₁, s₂, -, -, -, -, -, htyped, hagain⟩ := loop_at_fixpoint hbuild hwalk hs hclean
  have htyped' := htyped fun l hl => by
    rw [show s.loans = [] from hloans] at hl
    cases hl
  obtain ⟨t', ht', htclean, hbelow⟩ := hagain s' htyped' hclean (.refl _)
  exact ⟨c, s, s', t', e.1, hbuild, hwalk, hs, hclean, hentry, hexit, ht', htclean, hbelow⟩

end Context

end Ownership
