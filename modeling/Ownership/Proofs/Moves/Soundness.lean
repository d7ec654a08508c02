import Ownership.Proofs.Moves.Guards

/-!
# Accepted bodies are safe on every path

If a walk refuses no use, no use is refused on any path. The walk keeps for each place the largest
state that some path leaves it in. For loops this takes an argument: seen from one place, a round
either leaves the state alone or puts the place into a fixed state, so the state in which the second
walk begins already bounds the states of all later rounds.
-/

namespace Ownership

open List

def Context.deedsOf (c : Context) (π : List Event) : List Deed := π.flatMap c.deeds

namespace Skeleton

variable {c : Context} {s s' m : Session} {π : List Event} {r : Bool}

/-! ### Walks step by step -/

lemma walk_loop (hr : c.replays = 1) {pos : Int} {test : Expr} {body : Block} {loc : Span}
    {inner : Skeleton} (h : (loop pos test body loc inner).walk c s = .ok s') :
    ∃ m s₁ m' s₂, c.execute (.test pos test body loc) s = .ok m ∧ inner.walk c m = .ok s₁ ∧
      c.execute (.test pos test body loc)
        { s₁ with flow := m.flow.merge s₁.flow, replay := s₁.replay + 1 } = .ok m' ∧
      inner.walk c m' = .ok s₂ ∧
      s' = { s₂ with flow := (m.flow.merge s₁.flow).merge s₂.flow, replay := s₁.replay } := by
  rw [walk] at h
  obtain ⟨m, hm, h⟩ := bind_eq_ok.mp h
  obtain ⟨s₁, hs₁, h⟩ := bind_eq_ok.mp h
  rw [hr, Context.replayLoop] at h
  obtain ⟨s₂, hs₂, h⟩ := bind_eq_ok.mp h
  obtain ⟨m', hm', hs₂⟩ := bind_eq_ok.mp hs₂
  exact ⟨m, s₁, m', s₂, hm, hs₁, hm', hs₂, (Except.ok.inj h).symm⟩

/-- A walk only adds findings. -/
lemma walk_grows (hc : c.tracksLoans = true) (hr : c.replays = 1) (k : Skeleton)
    (h : k.walk c s = .ok s') : s.findings <+: s'.findings := by
  have hexec : ∀ {e t t'}, c.execute e t = .ok t' → t.findings <+: t'.findings :=
    fun h => (Context.performs hc _).grows h
  induction k generalizing s s' with
  | done =>
    cases h
    exact prefix_refl _
  | event e => exact hexec h
  | scope start stop node kind body ih =>
    obtain ⟨m, hm, h⟩ := bind_eq_ok.mp h
    obtain ⟨m', hm', h⟩ := bind_eq_ok.mp h
    exact (hexec hm).trans ((ih hm').trans (hexec h))
  | noted pos k ih =>
    obtain ⟨m, hm, h⟩ := bind_eq_ok.mp h
    cases h
    have hk : s.findings <+: m.findings := ih hm
    exact hk
  | seq k l ihk ihl =>
    obtain ⟨m, hm, h⟩ := bind_eq_ok.mp h
    split at h
    · cases h
      exact ihk hm
    · exact (ihk hm).trans (ihl h)
  | fork k l ihk ihl =>
    obtain ⟨s₁, h₁, h⟩ := bind_eq_ok.mp h
    obtain ⟨s₂, h₂, h⟩ := bind_eq_ok.mp h
    cases h
    have hl := ihl h₂
    exact (ihk h₁).trans hl
  | loop pos test body loc inner ih =>
    obtain ⟨m, s₁, m', s₂, hm, hs₁, hm', hs₂, rfl⟩ := walk_loop hr h
    have hagain := (hexec hm').trans (ih hs₂)
    exact (hexec hm).trans ((ih hs₁).trans hagain)

/-! ### Paths -/

/-- What a walk without refusals says about a path: its deeds pass, and if the path goes on, so does
the walk, in a state that bounds the state of the path. -/
structure Covers (c : Context) (s s' : Session) (π : List Event) (r : Bool) : Prop where
  ready : ∀ e ∈ π, c.Ready e
  passes : s.Passes (c.deedsOf π)
  goesOn : r = false → s'.flow.returned = false
  bound : r = false → ∀ q, Deed.after q (c.deedsOf π) (s.flow.stateOf q) ≤ s'.flow.stateOf q

/-- An event that is not refused covers itself. -/
lemma covers_event (hc : c.tracksLoans = true) {e : Event} (h : c.execute e s = .ok s')
    (hadm : c.Admits e s.flow) (hs : s.flow.returned = false) (hclean : s'.Clean) :
    Covers c s s' [e] e.isReturn := by
  have he := Context.performs hc e
  obtain ⟨hready, hp⟩ := he.passes h hadm hclean
  have hdeeds : c.deedsOf [e] = c.deeds e := flatMap_singleton _ _
  constructor
  · intro e' he'
    rw [mem_singleton.mp he']
    exact hready
  · rw [hdeeds]
    exact hp
  · intro hret
    rw [he.returned h, hs, hret]
    rfl
  · intro _ q
    rw [hdeeds, he.leaves h hp q]

lemma Covers.append {ρ : List Event} (h : Covers c s m π false) (h' : Covers c m s' ρ r) :
    Covers c s s' (π ++ ρ) r := by
  have hsplit : c.deedsOf (π ++ ρ) = c.deedsOf π ++ c.deedsOf ρ := flatMap_append ..
  constructor
  · intro e he
    rcases mem_append.mp he with he | he
    · exact h.ready e he
    · exact h'.ready e he
  · intro q
    rw [hsplit]
    exact Deed.passes_append.mpr ⟨h.passes q, Deed.passes_anti (h.bound rfl q) (h'.passes q)⟩
  · exact h'.goesOn
  · intro hr q
    rw [hsplit, Deed.after_append]
    exact (Deed.after_mono (h.bound rfl q)).trans (h'.bound hr q)

lemma Covers.of_returned (h : Covers c s m π true) : Covers c s s' π true where
  ready := h.ready
  passes := h.passes
  goesOn hr := nomatch hr
  bound hr := nomatch hr

/-- Only the ownership states at the two ends matter, and a larger one at the end does no harm. -/
lemma Covers.of_below {m' : Session} (h : Covers c m m' π r) (hs : s.flow = m.flow)
    (hs' : m'.flow.Below s'.flow) : Covers c s s' π r where
  ready := h.ready
  passes q := by
    rw [hs]
    exact h.passes q
  goesOn hr := (hs' (h.goesOn hr)).1
  bound hr q := by
    rw [hs]
    exact (h.bound hr q).trans ((hs' (h.goesOn hr)).2 q)

/-! ### Loops -/

/-- Rounds of a loop keep within a bound if its test changes nothing and one round of the body, from
somewhere, keeps within it. -/
lemma covered_laps {test : Event} {body : List Event → Bool → Prop} (bound : Place → PlaceState)
    (hready : c.Ready test) (hpass : ∀ q, Deed.Passes q (c.deeds test) (bound q))
    (hid : ∀ q x, Deed.after q (c.deeds test) x = x)
    (hbody : ∀ π r, body π r → (∀ e ∈ π, c.Ready e) ∧ ∀ q, Deed.Passes q (c.deedsOf π) (bound q) ∧
      (r = false → ∃ y, Deed.after q (c.deedsOf π) y ≤ bound q)) (h : Laps test body π r) :
    (∀ e ∈ π, c.Ready e) ∧ ∀ q x, x ≤ bound q → Deed.Passes q (c.deedsOf π) x ∧
      (r = false → Deed.after q (c.deedsOf π) x ≤ bound q) := by
  have hcons : ∀ ρ, c.deedsOf (test :: ρ) = c.deeds test ++ c.deedsOf ρ := fun ρ => rfl
  have hstep : ∀ {q x ρ}, x ≤ bound q → (Deed.Passes q (c.deedsOf (test :: ρ)) x ↔
      Deed.Passes q (c.deedsOf ρ) x) := by
    intro q x ρ hx
    rw [hcons, Deed.passes_append, hid]
    exact and_iff_right (Deed.passes_anti hx (hpass q))
  induction h with
  | exit =>
    refine ⟨fun e he => mem_singleton.mp he ▸ hready, fun q x hx => ⟨?_, fun _ => ?_⟩⟩
    · exact (hstep hx).mpr trivial
    · rw [hcons, Deed.after_append, hid]
      exact hx
  | @again π ρ r hπ _ ih =>
    obtain ⟨hre, hb⟩ := hbody π false hπ
    obtain ⟨hre', hb'⟩ := ih
    have hsplit : c.deedsOf (π ++ ρ) = c.deedsOf π ++ c.deedsOf ρ := flatMap_append ..
    refine ⟨?_, fun q x hx => ?_⟩
    · intro e he
      rcases mem_cons.mp he with rfl | he
      · exact hready
      · exact (mem_append.mp he).elim (hre e) (hre' e)
    · -- Seen from one place, the round leads back below the bound.
      obtain ⟨y, hy⟩ := (hb q).2 rfl
      have hround : Deed.after q (c.deedsOf π) x ≤ bound q := Deed.after_le_of_le hx hy
      obtain ⟨hp, ha⟩ := hb' q _ hround
      rw [hstep hx, hsplit, Deed.passes_append, hcons, Deed.after_append, hid, hsplit,
        Deed.after_append]
      exact ⟨⟨Deed.passes_anti hx (hb q).1, hp⟩, ha⟩
  | @leave π hπ =>
    obtain ⟨hre, hb⟩ := hbody π true hπ
    refine ⟨?_, fun q x hx => ⟨?_, fun hr => nomatch hr⟩⟩
    · intro e he
      rcases mem_cons.mp he with rfl | he
      · exact hready
      · exact hre e he
    · exact (hstep hx).mpr (Deed.passes_anti hx (hb q).1)

end Skeleton

namespace Context

variable {c : Context}

lemma demanded_ne_write {p : Place} {demand : Demand} {a : Access}
    (h : c.demanded p demand = .ok a) (q : Place) : a ≠ .write q := by
  rcases demanded_cases h with rfl | ⟨kind, rfl⟩ | ⟨rfl, -⟩ <;> simp

lemma evaluates_test {pos : Int} {test : Expr} {body : Block} {loc : Span} :
    ∀ d ∈ c.deeds (.test pos test body loc), d.Evaluates := by
  intro d hd
  obtain ⟨r, -, hd⟩ := mem_flatMap.mp hd
  unfold requestDeeds at hd
  cases ha : c.asked r with
  | error f =>
    rw [ha] at hd
    cases hd
  | ok a =>
    rw [ha] at hd
    obtain rfl := mem_singleton.mp hd
    refine ⟨a, rfl, ?_⟩
    cases r with
    | fail f => cases ha
    | place demand p span kept => exact demanded_ne_write ha

end Context

namespace Skeleton

variable {c : Context} {s s' m : Session}

variable (hc : c.tracksLoans = true)

include hc

/-- The test of a loop that is walked twice without refusals moves nothing. -/
lemma test_changes_nothing {pos : Int} {test : Expr} {body : Block} {loc : Span} {j m' : Session}
    (hm : c.execute (.test pos test body loc) s = .ok m) (hmclean : m.Clean)
    (hle : ∀ q, m.flow.stateOf q ≤ j.flow.stateOf q)
    (hm' : c.execute (.test pos test body loc) j = .ok m') (hm'clean : m'.Clean) (q : Place)
    (x : PlaceState) : Deed.after q (c.deeds (.test pos test body loc)) x = x := by
  have he := Context.performs hc (.test pos test body loc)
  have hnone : ∀ f, c.Admits (.test pos test body loc) f := fun f p hp => nomatch hp
  obtain ⟨-, hp⟩ := he.passes hm (hnone _) hmclean
  obtain ⟨-, hp'⟩ := he.passes hm' (hnone _) hm'clean
  refine Deed.after_of_move_not_mem Context.evaluates_test fun p => ?_
  refine Deed.move_not_mem_of_passes_again Context.evaluates_test (hp p) ?_ (hp' p)
  rw [← he.leaves hm hp p]
  exact hle p

lemma admits_scope {start : Int} {node : Node} {kind : ScopeKind} {body : Skeleton}
    (hm : c.execute (.enter start node kind) s = .ok m) (hadm : body.Admits c s.flow) :
    body.Admits c m.flow := by
  intro p hp
  refine (hadm p hp).of_le fun q => ?_
  rw [(Context.performs hc _).leaves hm fun _ => trivial]
  exact le_rfl

/-- What the second part of a sequence needs has just been read by the first. -/
lemma admits_seq {k l : Skeleton}
    (hread : ∀ p ∈ l.guards c, ∃ e, k = event e ∧ c.deeds e = [.access (.read p)])
    (hm : k.walk c s = .ok m) (hadm : k.Admits c s.flow) (hmclean : m.Clean) :
    l.Admits c m.flow := by
  intro p hp
  obtain ⟨e, rfl, hdeeds⟩ := hread p hp
  obtain ⟨-, hpass⟩ := (Context.performs hc e).passes hm hadm hmclean
  have hleaves := (Context.performs hc e).leaves hm hpass
  rw [hdeeds] at hpass hleaves
  exact .of_le (Session.passes_access.mp hpass) fun q => (hleaves q).le

/-- A walk that refuses no use, part by part: what is executed is admitted, and a loop is walked
twice. -/
inductive Clears (c : Context) : Skeleton → Session → Session → Prop
  | done (s : Session) : Clears c .done s s
  | event {e : Event} {s s' : Session} (h : c.execute e s = .ok s') (hadm : c.Admits e s.flow)
      (hclean : s'.Clean) : Clears c (.event e) s s'
  | scope {start stop : Int} {node : Node} {kind : ScopeKind} {body : Skeleton}
    {s m m' s' : Session}
      (henter : c.execute (.enter start node kind) s = .ok m) (hm : m.Clean)
      (hwalk : body.walk c m = .ok m') (hbody : Clears c body m m')
      (hexit : c.execute (.exit start stop node) m' = .ok s') (hs' : s'.Clean) :
      Clears c (.scope start stop node kind body) s s'
  | noted {pos : Int} {k : Skeleton} {s s' : Session} (h : Clears c k s s') :
      Clears c (.noted pos k) s (s'.snapshot pos)
  | stop {k l : Skeleton} {s s' : Session} (hwalk : k.walk c s = .ok s') (h : Clears c k s s')
      (hret : s'.flow.returned = true) : Clears c (.seq k l) s s'
  | seq {k l : Skeleton} {s m s' : Session} (hwalk : k.walk c s = .ok m) (h : Clears c k s m)
      (hret : m.flow.returned = false) (h' : Clears c l m s') : Clears c (.seq k l) s s'
  | fork {k l : Skeleton} {s s₁ s₂ : Session} (hwalk : k.walk c s = .ok s₁) (h₁ : Clears c k s s₁)
      (h₂ : Clears c l (s₁.withFlow s.flow) s₂) :
      Clears c (.fork k l) s (s₂.withFlow (s₁.flow.merge s₂.flow))
  | loop {pos : Int} {test : Expr} {body : Block} {loc : Span} {inner : Skeleton}
      {s m s₁ m' s₂ : Session} (hm : c.execute (.test pos test body loc) s = .ok m)
      (hmclean : m.Clean) (hwalk₁ : inner.walk c m = .ok s₁) (h₁ : Clears c inner m s₁)
      (hm' : c.execute (.test pos test body loc)
        { s₁ with flow := m.flow.merge s₁.flow, replay := s₁.replay + 1 } = .ok m')
      (hm'clean : m'.Clean) (hwalk₂ : inner.walk c m' = .ok s₂) (h₂ : Clears c inner m' s₂) :
      Clears c (.loop pos test body loc inner) s
        { s₂ with flow := (m.flow.merge s₁.flow).merge s₂.flow, replay := s₁.replay }

/-- A walk without refusals can be taken apart into such walks. -/
lemma clears_of_walk (hr : c.replays = 1) (k : Skeleton) (hk : k.Guarded c)
    (h : k.walk c s = .ok s') (hadm : k.Admits c s.flow) (hclean : s'.Clean) : Clears c k s s' := by
  induction k generalizing s s' with
  | done =>
    cases h
    exact .done s
  | event e => exact .event h hadm hclean
  | scope start stop node kind body ih =>
    obtain ⟨m, hm, h⟩ := bind_eq_ok.mp h
    obtain ⟨m', hm', h⟩ := bind_eq_ok.mp h
    have hm'clean : m'.Clean := hclean.of_prefix ((Context.performs hc _).grows h)
    have hmclean : m.Clean := hm'clean.of_prefix (walk_grows hc hr body hm')
    exact .scope hm hmclean hm' (ih hk hm' (admits_scope hc hm hadm) hm'clean) h hclean
  | noted pos k ih =>
    obtain ⟨m, hm, h⟩ := bind_eq_ok.mp h
    cases h
    exact .noted (ih hk hm hadm hclean)
  | seq k l ihk ihl =>
    obtain ⟨hgk, hgl, hread⟩ := hk
    obtain ⟨m, hm, h⟩ := bind_eq_ok.mp h
    cases hret : m.flow.returned with
    | true =>
      rw [hret, if_pos rfl] at h
      cases h
      exact .stop hm (ihk hgk hm hadm hclean) hret
    | false =>
      rw [hret, if_neg Bool.false_ne_true] at h
      have hmclean : m.Clean := hclean.of_prefix (walk_grows hc hr l h)
      exact .seq hm (ihk hgk hm hadm hmclean) hret
        (ihl hgl h (admits_seq hc hread hm hadm hmclean) hclean)
  | fork k l ihk ihl =>
    obtain ⟨hgk, hgl⟩ := hk
    obtain ⟨s₁, h₁, h⟩ := bind_eq_ok.mp h
    obtain ⟨s₂, h₂, h⟩ := bind_eq_ok.mp h
    cases h
    have hs₂clean : s₂.Clean := hclean
    have hs₁clean : s₁.Clean :=
      hs₂clean.of_prefix (walk_grows (s := s₁.withFlow s.flow) hc hr l h₂)
    refine .fork h₁ (ihk hgk h₁ (fun p hp => hadm p ?_) hs₁clean)
      (ihl hgl h₂ (fun p hp => hadm p ?_) hs₂clean)
    · exact mem_append_left _ hp
    · exact mem_append_right _ hp
  | loop pos test body loc inner ih =>
    obtain ⟨hgi, hnone⟩ := hk
    obtain ⟨m, s₁, m', s₂, hm, h₁, hm', h₂, rfl⟩ := walk_loop hr h
    have hs₂clean : s₂.Clean := hclean
    have hm'clean : m'.Clean := hs₂clean.of_prefix (walk_grows hc hr inner h₂)
    have hgrows := (Context.performs hc _).grows hm'
    have hs₁clean : s₁.Clean := hm'clean.of_prefix hgrows
    have hmclean : m.Clean := hs₁clean.of_prefix (walk_grows hc hr inner h₁)
    exact .loop hm hmclean h₁ (ih hgi h₁ (admits_nil hnone _) hs₁clean) hm' hm'clean h₂
      (ih hgi h₂ (admits_nil hnone _) hs₂clean)

/-- A walk without refusals covers every path. -/
theorem Clears.covers {k : Skeleton} (h : Clears c k s s') (hs : s.flow.returned = false)
    {π : List Event} {r : Bool} (hπ : k.Path π r) : Covers c s s' π r := by
  induction h generalizing π r with
  | done s =>
    obtain ⟨rfl, rfl⟩ := hπ
    exact ⟨(fun _ he => nomatch he), fun _ => trivial, fun _ => hs, fun _ _ => le_refl _⟩
  | event h hadm hclean =>
    obtain ⟨rfl, rfl⟩ := hπ
    exact covers_event hc h hadm hs hclean
  | @scope start stop node kind body s m m' s' henter hm _ _ hexit hs' ih =>
    obtain ⟨ρ, hρ, rfl⟩ := hπ
    have henter : Covers c s m [.enter start node kind] false :=
      covers_event hc henter (fun p hp => nomatch hp) hs hm
    have hbody : Covers c m m' ρ r := ih (henter.goesOn rfl) hρ
    cases r with
    | true =>
      rw [if_pos rfl, append_nil]
      exact (henter.append hbody).of_returned
    | false =>
      rw [if_neg Bool.false_ne_true]
      have hexit : Covers c m' s' [.exit start stop node] false :=
        covers_event hc hexit (fun p hp => nomatch hp) (hbody.goesOn rfl) hs'
      exact henter.append (hbody.append hexit)
  | noted _ ih => exact (ih hs hπ).of_below rfl (.refl _)
  | stop _ _ hret ih =>
    rcases hπ with ⟨hπ, rfl⟩ | ⟨π₁, π₂, h₁, h₂, rfl⟩
    · exact ih hs hπ
    · cases hret.symm.trans ((ih hs h₁).goesOn rfl)
  | seq _ _ hret _ ih ih' =>
    rcases hπ with ⟨hπ, rfl⟩ | ⟨π₁, π₂, h₁, h₂, rfl⟩
    · exact (ih hs hπ).of_returned
    · exact (ih hs h₁).append (ih' hret h₂)
  | fork _ _ _ ih₁ ih₂ =>
    rcases hπ with hπ | hπ
    · exact (ih₁ hs hπ).of_below rfl (Flow.below_merge_left _ _)
    · exact (ih₂ hs hπ).of_below rfl (Flow.below_merge_right _ _)
  | @loop pos test body loc inner s m s₁ m' s₂ hm hmclean _ _ hm' hm'clean _ _ ih₁ ih₂ =>
    have hmret : m.flow.returned = false := Context.returned_execute rfl hm hs
    obtain ⟨hjret, hmj⟩ := Flow.below_merge_left m.flow s₁.flow hmret
    have hm'ret : m'.flow.returned = false := Context.returned_execute rfl hm' hjret
    have hid := test_changes_nothing hc hm hmclean hmj hm' hm'clean
    have he := Context.performs hc (.test pos test body loc)
    obtain ⟨hready, hp⟩ := he.passes hm (fun p hp => nomatch hp) hmclean
    obtain ⟨-, hp'⟩ := he.passes hm' (fun p hp => nomatch hp) hm'clean
    have hm'j : ∀ q, m'.flow.stateOf q = (m.flow.merge s₁.flow).stateOf q := by
      intro q
      rw [he.leaves hm' hp' q, hid]
    have hsm : ∀ q, s.flow.stateOf q = m.flow.stateOf q := by
      intro q
      rw [he.leaves hm hp q, hid]
    -- The first walk of the body bounds what a round leaves, the second shows that rounds pass.
    have hlaps := covered_laps (m.flow.merge s₁.flow).stateOf hready (fun q => hp' q) hid
      (fun ρ r hρ => ?_) hπ
    · obtain ⟨hre, hall⟩ := hlaps
      have hend := Flow.below_merge_left (m.flow.merge s₁.flow) s₂.flow hjret
      refine ⟨hre, fun q => (hall q _ ?_).1, fun _ => hend.1, fun hr q => ?_⟩
      · exact (hsm q).le.trans (hmj q)
      · exact ((hall q _ ((hsm q).le.trans (hmj q))).2 hr).trans (hend.2 q)
    · have hfirst := ih₁ hmret hρ
      have hsecond := ih₂ hm'ret hρ
      refine ⟨hfirst.ready, fun q => ⟨?_, fun hr => ⟨m.flow.stateOf q, ?_⟩⟩⟩
      · rw [← hm'j q]
        exact hsecond.passes q
      · exact (hfirst.bound hr q).trans
          ((Flow.below_merge_right m.flow s₁.flow (hfirst.goesOn hr)).2 q)

end Skeleton

namespace Context

variable {c : Context} {s t : Session} {π : List Event} {program : Program} {f : Function}
  {options : Options}

/-! ### Following a path -/

lemma follow_completes (hc : c.tracksLoans = true) (hready : ∀ e ∈ π, c.Ready e)
    (hs : c.LoansTyped s) (hp : s.Passes (c.deedsOf π)) :
    ∃ t, c.follow π s = .ok t ∧ c.LoansTyped t := by
  induction π generalizing s with
  | nil => exact ⟨s, rfl, hs⟩
  | cons e π ih =>
    have hpe : s.Passes (c.deeds e) := hp.of_append
    obtain ⟨m, hm⟩ := hready e mem_cons_self s hs hpe
    have hleaves := (performs hc e).leaves hm hpe
    obtain ⟨t, ht, htt⟩ := ih (fun e' he' => hready e' (mem_cons_of_mem _ he'))
      ((performs hc e).loansTyped hm hs) ((Session.passes_append hleaves).mp hp).2
    exact ⟨t, by rw [follow, hm]; exact ht, htt⟩

lemma follow_leaves (hc : c.tracksLoans = true) (h : c.follow π s = .ok t)
    (hp : s.Passes (c.deedsOf π)) : s.Leaves (c.deedsOf π) t := by
  induction π generalizing s with
  | nil =>
    cases h
    exact fun _ => rfl
  | cons e π ih =>
    obtain ⟨m, hm, h⟩ := bind_eq_ok.mp h
    have hleaves := (performs hc e).leaves hm hp.of_append
    exact hleaves.append (ih h ((Session.passes_append hleaves).mp hp).2)

/-- Whether some access on the way along events does not fit the state it meets. -/
def Fails (c : Context) (π : List Event) (s : Session) : Prop :=
  ∃ before e rest t a u, π = before ++ e :: rest ∧ c.follow before s = .ok t ∧
    c.Tries e t a u ∧ ¬a.Fits u.flow

lemma not_fails_of_passes (hc : c.tracksLoans = true) (hp : s.Passes (c.deedsOf π)) :
    ¬c.Fails π s := by
  rintro ⟨before, e, rest, t, a, u, rfl, ht, htries, hfit⟩
  have hsplit :
      c.deedsOf (before ++ e :: rest) = c.deedsOf before ++ (c.deeds e ++ c.deedsOf rest) :=
    flatMap_append ..
  rw [hsplit] at hp
  have hleaves := follow_leaves hc ht hp.of_append
  exact hfit ((performs hc e).fits htries ((Session.passes_append hleaves).mp hp).2.of_append)

/-! ### Functions -/

lemma build_fields (h : build program f options = .ok c) :
    c.tracksLoans = true ∧ c.replays = 1 ∧ c.function = f := by
  obtain ⟨tree, typing, -, -, rfl⟩ := build_cases h
  exact ⟨rfl, rfl, rfl⟩

lemma tree_of_build (h : build program f options = .ok c) :
    ScopeTree.ofFunction f = .ok c.tree := by
  obtain ⟨tree, typing, htree, -, rfl⟩ := build_cases h
  exact htree

/-- The session in which a body begins has no loans, has not returned and has refused nothing. -/
lemma initial_fields (h : c.initial = .ok s) :
    s.loans = [] ∧ s.flow.returned = false ∧ s.findings = [] := by
  obtain ⟨root, -, rfl⟩ := map_eq_ok.mp h
  refine ⟨?_, returned_start root, ?_⟩
  · unfold start
    rw [foldl_keeps Session.loans]
    exact fun _ _ => rfl
  · unfold start
    rw [foldl_keeps Session.findings]
    exact fun _ _ => rfl

/-- The walk of a function begins in its initial session and ends with the end of its scope. -/
lemma run_cases (h : c.run = .ok s) :
    ∃ s₀ s₁, c.initial = .ok s₀ ∧ c.function.skeleton.walk c s₀ = .ok s₁ ∧
      c.execute (.exit 0 c.function.stop .function) s₁ = .ok s := by
  rw [run_eq] at h
  obtain ⟨s₀, h₀, h⟩ := bind_eq_ok.mp h
  obtain ⟨s₁, h₁, h⟩ := bind_eq_ok.mp h
  exact ⟨s₀, s₁, h₀, h₁, h⟩

lemma loansTyped_initial (h : c.initial = .ok s) : c.LoansTyped s := by
  intro l hl
  rw [(initial_fields h).1] at hl
  cases hl

/-- If a run refuses nothing, the deeds of every path pass. -/
lemma passes_path (hbuild : build program f options = .ok c) (hrun : c.run = .ok s)
    (hclean : s.Clean) (hπ : f.Path π) :
    ∃ s₀, c.initial = .ok s₀ ∧ (∀ e ∈ π, c.Ready e) ∧ s₀.Passes (c.deedsOf π) := by
  obtain ⟨hc, hr, rfl⟩ := build_fields hbuild
  obtain ⟨s₀, s₁, h₀, h₁, hexit⟩ := run_cases hrun
  obtain ⟨r, hπ⟩ := hπ
  have hclean₁ : s₁.Clean := hclean.of_prefix ((performs hc _).grows hexit)
  obtain ⟨hguarded, hnone⟩ := Stmt.guarded_skeletonAll c c.function.bodyStart c.function.body.stmts
  have hclears := Skeleton.clears_of_walk hc hr _ hguarded h₁ (Skeleton.admits_nil hnone _) hclean₁
  have hcovers := hclears.covers hc (initial_fields h₀).2.1 hπ
  exact ⟨s₀, h₀, hcovers.ready, hcovers.passes⟩

/-- If the walk of a function refuses no use, then every path through its body can be followed to
its end, and every read, move, borrow and write on the way meets a place in a state that permits
it. -/
theorem paths_safe_of_clean {program : Program} {f : Function} {options : Options} {c : Context}
    {s : Session} (hbuild : build program f options = .ok c) (hrun : c.run = .ok s)
    (hclean : s.Clean) {π : List Event} (hπ : f.Path π) :
    ∃ s₀, c.initial = .ok s₀ ∧ (∃ t, c.follow π s₀ = .ok t) ∧ ¬c.Fails π s₀ := by
  obtain ⟨hc, -, -⟩ := build_fields hbuild
  obtain ⟨s₀, h₀, hready, hpass⟩ := passes_path hbuild hrun hclean hπ
  obtain ⟨t, ht, -⟩ := follow_completes hc hready (loansTyped_initial h₀) hpass
  exact ⟨s₀, h₀, ⟨t, ht⟩, not_fails_of_passes hc hpass⟩

end Context

/-! ### A loop that renews what it takes -/

/-- A table with texts, which move, and truth values, which are copied. -/
def TypeTable.texts : TypeTable where
  defs := [⟨"String", .owned⟩, ⟨"Bool", .scalar⟩]
  names := (Registry.empty.insert "String" ⟨1⟩).insert "Bool" ⟨2⟩

/-- Takes the value of `x` and puts another one in its place. -/
def Block.renewal : Block :=
  .mk [.declare "y" none (.var "x" .unknown) false .unknown,
    .assign (.var "x" .unknown) (.literal (.text "a") .unknown) .unknown] .unknown

def Function.renewal : Function where
  name := "renew"
  params := [⟨"c", some ⟨2⟩, false, .unknown⟩, ⟨"x", some ⟨1⟩, true, .unknown⟩]
  body :=
    .mk [.loop (.var "c" .unknown) .renewal .unknown, .ret (.var "x" .unknown) .unknown] .unknown

namespace Context

/-- Two rounds in each of which a text is moved away and replaced, and then a return. -/
theorem paths_safe_of_clean_renewal : ∃ c s π s₀,
    build { types := .texts } .renewal {} = .ok c ∧ c.run = .ok s ∧ s.Clean ∧
    Function.renewal.Path π ∧ π.length = 12 ∧
    c.initial = .ok s₀ ∧ (∃ t, c.follow π s₀ = .ok t) ∧ ¬c.Fails π s₀ := by
  have hok : ((build { types := .texts } .renewal {} >>= run).toOption.any
      fun s => decide s.Clean) = true := by decide +kernel
  obtain ⟨s, hs, hclean⟩ := Fault.exists_ok hok
  obtain ⟨c, hbuild, hrun⟩ := bind_eq_ok.mp hs
  have hround : ∃ ρ, (Block.renewal.skeleton .loopBody 4).Path ρ false ∧ ρ.length = 4 :=
    ⟨_, ⟨_, .inr ⟨_, _, ⟨rfl, rfl⟩, .inr ⟨_, _, ⟨rfl, rfl⟩, ⟨rfl, rfl⟩, rfl⟩, rfl⟩, rfl⟩, rfl⟩
  obtain ⟨ρ, hρ, hlen⟩ := hround
  have hpath : Function.renewal.Path (_ :: (ρ ++ _ :: (ρ ++ [_])) ++ [_]) :=
    ⟨true, .inr ⟨_, _, .again hρ (.again hρ .exit), .inl ⟨⟨rfl, rfl⟩, rfl⟩, rfl⟩⟩
  obtain ⟨s₀, hs₀, hsafe⟩ := paths_safe_of_clean hbuild hrun (of_decide_eq_true hclean) hpath
  exact ⟨c, s, _, s₀, hbuild, hrun, of_decide_eq_true hclean, hpath, by simp [hlen], hs₀, hsafe⟩

end Context

end Ownership
