import Ownership.Proofs.Scope.Execute
import Ownership.Proofs.Scope.Loops

/-!
# Streams with matching brackets

A stream of events is balanced if the scopes that are entered in it are left in it again, properly
nested, each by an event of its own node. Scope trees are built from exactly those streams that are
one pair of brackets around a balanced stream, as long as no block is executed like a statement.
-/

namespace Ownership

open List

/-! ### Balanced streams -/

/-- The streams that leave the scopes they enter, innermost first, and no others. -/
inductive Balanced : List Event → Prop
  | nil : Balanced []
  | step {e : Event} {es : List Event} (he : e.kind = .step) (h : Balanced es) : Balanced (e :: es)
  | scope {opening closing : Event} {inner rest : List Event} (ho : opening.kind = .enter)
      (hc : closing.kind = .exit) (hl : closing.label = opening.label) (hi : Balanced inner)
      (hr : Balanced rest) : Balanced (opening :: (inner ++ closing :: rest))

lemma Balanced.append {es fs : List Event} (h : Balanced es) (h' : Balanced fs) :
    Balanced (es ++ fs) := by
  induction h with
  | nil => exact h'
  | step he _ ih => exact .step he ih
  | scope ho hc hl hi _ _ ih =>
    rw [cons_append, append_assoc, cons_append]
    exact .scope ho hc hl hi ih

/-- Whether a stream is one pair of brackets, of one node, around a balanced stream. -/
def WellBracketed (es : List Event) : Prop :=
  ∃ opening inner closing, es = opening :: (inner ++ [closing]) ∧ opening.kind = .enter ∧
    closing.kind = .exit ∧ closing.label = opening.label ∧ Balanced inner

/-- Whether a stream leaves open scopes, innermost first, the last one with its last event. -/
def Closes : List Int → List Event → Prop
  | [], es => es = []
  | l :: ls, es => ∃ inner closing rest, es = inner ++ closing :: rest ∧ Balanced inner ∧
    closing.kind = .exit ∧ closing.label = l ∧ Closes ls rest

/-! ### What the builder makes of brackets -/

/-- Whether a node is one that the builder executes. -/
def Node.executes : Node → Bool
  | function | stmt (.block _) | stmt (.foreign _) => false
  | param _ | arm .. | stmt _ => true

lemma Node.executes_of_known {node : Node} (h : node.isKnown = true) (hn : node.isBlock = false) :
    node.executes = true := by
  cases node with
  | function => cases h
  | stmt s =>
    cases s with
    | block b => cases hn
    | foreign kind => cases h
    | _ => rfl
  | _ => rfl

lemma Node.isBlock_of_executes {node : Node} (h : node.executes = true) : node.isBlock = false := by
  cases node with
  | stmt s =>
    cases s with
    | block b => cases h
    | _ => rfl
  | _ => rfl

namespace ScopeBuilder

variable {b m b' : ScopeBuilder} {e : Event} {es : List Event} {top : OpenScope}
  {rest : List OpenScope} {f : Fault}

/-- The labels of the open scopes, the innermost first. -/
def labels (b : ScopeBuilder) : List Int := b.stack.map (·.label)

lemma labels_eq_nil_iff : b.labels = [] ↔ b.stack = [] := map_eq_nil_iff

lemma labels_enter (b : ScopeBuilder) (e : Event) : (b.enter e).labels = e.label :: b.labels := rfl

lemma labels_executed (hb : b.stack = top :: rest) : (b.executed e top rest).labels = b.labels := by
  simp [labels, executed, OpenScope.add, hb]

lemma labels_exited (hb : b.stack = top :: rest) (hl : top.label = e.label) :
    b.labels = e.label :: (b.exited e top rest).labels := by
  simp [labels, exited, hb, hl]

lemma closed_exited : (b.exited e top rest).closed = (b.exited e top rest).labels.isEmpty := by
  cases rest <;> rfl

lemma eq_nil_of_read (hb : b.closed = true) (h : b.read es = .ok b') : es = [] := by
  cases es with
  | nil => rfl
  | cons e es =>
    obtain ⟨m, hm, -⟩ := read_cons_eq_ok.mp h
    rw [step_eq_ok_iff, hb] at hm
    cases hm.1

/-- A stream that is read to its end leaves all scopes that were open. -/
theorem closes_of_read (hb : b.closed = false) (hne : b.labels ≠ []) (h : b.read es = .ok b')
    (hb' : b'.stack = []) : Closes b.labels es := by
  induction es generalizing b with
  | nil =>
    cases h
    exact absurd (labels_eq_nil_iff.mpr hb') hne
  | cons e es ih =>
    obtain ⟨m, hm, h⟩ := read_cons_eq_ok.mp h
    obtain ⟨l, ls, hls⟩ := exists_cons_of_ne_nil hne
    obtain ⟨-, hreads⟩ := step_eq_ok_iff.mp hm
    cases hreads with
    | enter he =>
      -- The scope that is entered is left before the innermost one is.
      obtain ⟨inner, closing, rest, rfl, hi, hc, hcl, hrest⟩ :=
        ih (b := b.enter e) hb (by simp [labels_enter]) h
      change Closes b.labels rest at hrest
      rw [hls] at hrest ⊢
      obtain ⟨inner', closing', rest', rfl, hi', hc', hcl', hrest'⟩ := hrest
      exact ⟨e :: (inner ++ closing :: inner'), closing', rest',
        by simp, .scope he hc hcl hi hi', hc',
        hcl', hrest'⟩
    | @exit he top rest hst hl =>
      rw [labels_exited hst hl]
      refine ⟨[], e, es, rfl, .nil, he, rfl, ?_⟩
      by_cases hm' : (b.exited e top rest).labels = []
      · rw [hm']
        exact eq_nil_of_read (by rw [closed_exited, hm']; rfl) h
      · exact ih (by rw [closed_exited]; simpa using hm') hm' h
    | @step he top rest hst hk hn =>
      have hlabels := labels_executed (e := e) hst
      have hcloses := ih (b := b.executed e top rest) hb (by rwa [hlabels]) h
      rw [hlabels, hls] at hcloses
      obtain ⟨inner, closing, rest, rfl, hi, hc, hcl, hrest⟩ := hcloses
      rw [hls]
      exact ⟨e :: inner, closing, rest, rfl, .step he hi, hc, hcl, hrest⟩

/-- A balanced stream is read inside an open scope and leaves the open scopes as they were, unless
it has an expression of an unknown kind. -/
theorem read_of_balanced (h : Balanced es) (hes : ∀ e ∈ es, e.kind = .step → e.node.executes = true)
    (hb : b.closed = false) (hne : b.labels ≠ []) :
    (∃ b', b.read es = .ok b' ∧ b'.labels = b.labels ∧ b'.closed = false) ∨
      ∃ e ∈ es, e.kind = .step ∧ e.node.isKnown = false ∧
        ∃ kind, b.read es = .error (.unknownExpression kind) := by
  induction h generalizing b with
  | nil => exact .inl ⟨b, rfl, rfl, hb⟩
  | @step e es he _ ih =>
    obtain ⟨top, rest, hst⟩ := exists_cons_of_ne_nil (mt labels_eq_nil_iff.mpr hne)
    have hexec := hes e mem_cons_self he
    cases hk : e.node.isKnown with
    | true =>
      have hstep : b.step e = .ok (b.executed e top rest) :=
        step_eq_ok_iff.mpr ⟨hb, .step he hst hk (Node.isBlock_of_executes hexec)⟩
      have hread : b.read (e :: es) = (b.executed e top rest).read es := by
        rw [read, hstep]
        rfl
      rw [hread, ← labels_executed (e := e) hst]
      rcases ih (b := b.executed e top rest) (fun e' he' => hes e' (mem_cons_of_mem _ he')) hb
        (by rwa [labels_executed hst]) with hok | ⟨e', he', hbad⟩
      · exact .inl hok
      · exact .inr ⟨e', mem_cons_of_mem _ he', hbad⟩
    | false =>
      refine .inr ⟨e, mem_cons_self, he, hk, ?_⟩
      cases hnode : e.node with
      | stmt s =>
        rw [hnode] at hk hexec
        have hs : ∀ kind, s ≠ .foreign kind := by
          rintro kind rfl
          cases hexec
        obtain ⟨kind, hkind⟩ := execute_of_foreign hs hk
        refine ⟨kind, ?_⟩
        have hstep : b.step e = .error (.unknownExpression kind) := by
          simp only [step, hb, he, Bool.false_eq_true, if_false, run, hst, isEmpty_cons, hnode]
          exact hkind
        rw [read, hstep]
        rfl
      | function => rw [hnode] at hexec; cases hexec
      | param p => rw [hnode] at hk; cases hk
      | arm a sel => rw [hnode] at hk; cases hk
  | @scope opening closing inner rest ho hc hl hi hr ihi ihr =>
    have hstep : b.step opening = .ok (b.enter opening) := step_eq_ok_iff.mpr ⟨hb, .enter ho⟩
    have hread : b.read (opening :: (inner ++ closing :: rest)) =
        (b.enter opening).read inner >>= (·.read (closing :: rest)) := by
      rw [read, hstep, ← read_append]
      rfl
    rw [hread]
    rcases ihi (b := b.enter opening) (fun e he => hes e (by simp [he])) hb (by simp [labels_enter])
      with ⟨m, hm, hlabels, hmc⟩ | ⟨e, he, hs, hk, kind, hkind⟩
    swap
    · exact .inr ⟨e, by simp [he], hs, hk, kind, by rw [hkind]; rfl⟩
    rw [labels_enter] at hlabels
    obtain ⟨top, others, hst⟩ := exists_cons_of_ne_nil
      (mt labels_eq_nil_iff.mpr (by rw [hlabels]; simp))
    have htop : top.label = closing.label ∧ (m.exited closing top others).labels = b.labels := by
      simpa [labels, exited, hst, hl] using hlabels
    have hleave : m.step closing = .ok (m.exited closing top others) :=
      step_eq_ok_iff.mpr ⟨hmc, .exit hc hst htop.1⟩
    have hrest : (b.enter opening).read inner >>= (·.read (closing :: rest)) =
        (m.exited closing top others).read rest := by
      rw [hm]
      change m.read (closing :: rest) = _
      rw [read, hleave]
      rfl
    rw [hrest, ← htop.2]
    rcases ihr (b := m.exited closing top others) (fun e he => hes e (by simp [he]))
      (by rw [closed_exited, htop.2]; simpa using hne) (by rwa [htop.2]) with hok | ⟨e, he, hbad⟩
    · exact .inl hok
    · exact .inr ⟨e, by simp [he], hbad⟩

/-! ### Streams that are not read -/

/-- An event with a node of a known kind that is not read is out of place, or it is a block. -/
lemma step_error (h : b.step e = .error f) (hk : e.kind = .step → e.node.isKnown = true) :
    (∃ p, f.family = .unbalancedScopes p) ∨
      (b.closed = false ∧ b.labels ≠ [] ∧ e.kind = .step ∧ e.node.isBlock = true ∧
        f = .unexpectedStep "Block") := by
  unfold step at h
  split at h
  · obtain rfl := Except.error.inj h
    exact .inl ⟨e.pos, rfl⟩
  · rename_i hc
    cases he : e.kind with
    | enter =>
      rw [he] at h
      cases h
    | exit =>
      rw [he] at h
      dsimp only [leave] at h
      split at h
      · obtain rfl := Except.error.inj h
        exact .inl ⟨e.pos, rfl⟩
      · split at h
        · obtain rfl := Except.error.inj h
          exact .inl ⟨e.pos, rfl⟩
        · cases h
    | step =>
      rw [he] at h
      dsimp only [run] at h
      split at h
      · obtain rfl := Except.error.inj h
        exact .inl ⟨e.pos, rfl⟩
      · rename_i hst
        cases hn : e.node.isBlock with
        | false =>
          rw [execute_of_known (hk he) hn] at h
          cases h
        | true =>
          have hne : b.labels ≠ [] := mt labels_eq_nil_iff.mp (by simpa using hst)
          refine .inr ⟨by simpa using hc, hne, rfl, rfl, ?_⟩
          unfold Node.isBlock at hn
          split at hn
          · rename_i body hnode
            rw [hnode] at h
            exact (Except.error.inj h).symm
          · cases hn

/-- A stream that is not read has a first event that fails. -/
lemma read_error (h : b.read es = .error f) :
    ∃ before e after m, es = before ++ e :: after ∧ b.read before = .ok m ∧
      m.step e = .error f := by
  induction es generalizing b with
  | nil => cases h
  | cons e es ih =>
    rw [read] at h
    cases hm : b.step e with
    | error f' =>
      rw [hm] at h
      obtain rfl := Except.error.inj h
      exact ⟨[], e, es, b, rfl, rfl, hm⟩
    | ok m =>
      rw [hm] at h
      obtain ⟨before, e', after, m', rfl, hread, hstep⟩ := ih h
      exact ⟨e :: before, e', after, m', rfl, read_cons_eq_ok.mpr ⟨m, hm, hread⟩, hstep⟩

/-- No stream with an unknown node is read. -/
lemma known_of_read (h : b.read es = .ok b') :
    ∀ e ∈ es, e.kind = .step → e.node.isKnown = true ∧ e.node.isBlock = false := by
  induction es generalizing b with
  | nil => exact fun e he => nomatch he
  | cons e es ih =>
    obtain ⟨m, hm, h⟩ := read_cons_eq_ok.mp h
    intro e' he' hs
    rcases mem_cons.mp he' with rfl | he'
    · obtain ⟨-, hreads⟩ := step_eq_ok_iff.mp hm
      cases hreads with
      | enter he => rw [he] at hs; cases hs
      | exit he => rw [he] at hs; cases hs
      | step _ _ hk hn => exact ⟨hk, hn⟩
    · exact ih h e' he' hs

/-- What is open can be closed. -/
lemma exists_exits (hb : b.closed = false) (hne : b.labels ≠ []) :
    ∃ exits b', exits ≠ [] ∧ (∀ x ∈ exits, x.kind = .exit) ∧ b.read exits = .ok b' ∧
      b'.stack = [] := by
  induction hst : b.stack generalizing b with
  | nil => exact absurd (labels_eq_nil_iff.mpr hst) hne
  | cons top rest ih =>
    have hstep : b.step (.exit top.label 0 .function) =
        .ok (b.exited (.exit top.label 0 .function) top rest) :=
      step_eq_ok_iff.mpr ⟨hb, .exit rfl hst rfl⟩
    by_cases hrest : rest = []
    · refine ⟨[.exit top.label 0 .function], b.exited (.exit top.label 0 .function) top rest,
        by simp, by simp [Event.exit], ?_, hrest⟩
      exact read_cons_eq_ok.mpr ⟨_, hstep, rfl⟩
    · obtain ⟨exits, b', -, hexits, hread, hb'⟩ :=
        ih (b := b.exited (.exit top.label 0 .function) top rest) (by simpa [exited] using hrest)
          (by simpa [labels, exited] using hrest) rfl
      refine ⟨.exit top.label 0 .function :: exits, b', by simp, ?_, ?_, hb'⟩
      · intro x hx
        rcases mem_cons.mp hx with rfl | hx
        · rfl
        · exact hexits x hx
      · exact read_cons_eq_ok.mpr ⟨_, hstep, hread⟩

end ScopeBuilder

namespace ScopeTree

open ScopeBuilder

variable {es : List Event} {tree : ScopeTree} {b : ScopeBuilder} {e : Event} {f : Fault}

/-- Whether a stream has opened scopes and left some of them open: nothing but exits are missing. -/
def Unclosed (es : List Event) : Prop :=
  es ≠ [] ∧ ∃ exits, exits ≠ [] ∧ (∀ x ∈ exits, x.kind = .exit) ∧ WellBracketed (es ++ exits)

/-- A stream that is read from its beginning to its end is a pair of brackets. -/
lemma wellBracketed_of_read (he : e.kind = .enter)
    (h : ScopeBuilder.read { tree } (e :: es) = .ok b)
    (hb : b.stack = []) : WellBracketed (e :: es) := by
  obtain ⟨m, hm, h⟩ := read_cons_eq_ok.mp h
  obtain ⟨-, hreads⟩ := step_eq_ok_iff.mp hm
  cases hreads with
  | enter _ =>
    obtain ⟨inner, closing, rest, rfl, hi, hc, hl, rfl⟩ :=
      closes_of_read (b := ScopeBuilder.enter { tree } e) rfl (by simp [labels_enter]) h hb
    exact ⟨e, inner, closing, rfl, he, hc, hl, hi⟩
  | exit hk => rw [he] at hk; cases hk
  | step hk => rw [he] at hk; cases hk

/-- A stream with matching brackets is read, unless a node is unknown. -/
lemma read_of_wellBracketed (tree : ScopeTree) (h : WellBracketed es)
    (hes : ∀ e ∈ es, e.kind = .step → e.node.executes = true) :
    (∃ b, ScopeBuilder.read { tree } es = .ok b ∧ b.stack = []) ∨
      ∃ e ∈ es, e.kind = .step ∧ e.node.isKnown = false ∧
        ∃ kind, ScopeBuilder.read { tree } es = .error (.unknownExpression kind) := by
  obtain ⟨opening, inner, closing, rfl, ho, hc, hl, hi⟩ := h
  have hstep : ScopeBuilder.step { tree } opening = .ok (ScopeBuilder.enter { tree } opening) :=
    step_eq_ok_iff.mpr ⟨rfl, .enter ho⟩
  have hread : ScopeBuilder.read { tree } (opening :: (inner ++ [closing])) =
      (ScopeBuilder.enter { tree } opening).read inner >>= (·.read [closing]) := by
    rw [ScopeBuilder.read, hstep, ← read_append]
    rfl
  rw [hread]
  rcases read_of_balanced (b := ScopeBuilder.enter { tree } opening) hi
    (fun e he => hes e (by simp [he])) rfl (by simp [labels_enter])
    with ⟨m, hm, hlabels, hmc⟩ | ⟨e, he, hs, hk, kind, hkind⟩
  · obtain ⟨top, rest, hst⟩ := exists_cons_of_ne_nil
      (mt labels_eq_nil_iff.mpr (by rw [hlabels]; simp [labels_enter]))
    have htop : top.label = closing.label ∧ rest = [] := by
      simpa [labels, labels_enter, hst, hl, ScopeBuilder.enter] using hlabels
    refine .inl ⟨m.exited closing top rest, ?_, htop.2⟩
    rw [hm]
    exact read_cons_eq_ok.mpr ⟨_, step_eq_ok_iff.mpr ⟨hmc, .exit hc hst htop.1⟩, rfl⟩
  · exact .inr ⟨e, by simp [he], hs, hk, kind, by rw [hkind]; rfl⟩

lemma ofEvents_cons (he : e.kind = .enter) : ofEvents (e :: es) =
    ScopeBuilder.read { tree := { events := e :: es } } (e :: es) >>= fun b =>
      if b.stack.isEmpty then return b.tree
      else throw (.leftOpen b.stack.length (((e :: es).getLast?.map (·.pos)).getD 0)) := by
  unfold ofEvents
  dsimp only
  rw [if_neg (by simp [he])]

/-- A tree is built if a stream is read to its end and all scopes have been left. -/
lemma ofEvents_eq_ok_iff {t : ScopeTree} : ofEvents es = .ok t ↔
    ∃ e rest b, es = e :: rest ∧ e.kind = .enter ∧
      ScopeBuilder.read { tree := { events := es } } es = .ok b ∧ b.stack = [] ∧ b.tree = t := by
  constructor
  · intro h
    cases es with
    | nil => cases h
    | cons e rest =>
      by_cases he : e.kind = .enter
      · rw [ofEvents_cons he] at h
        obtain ⟨b, hb, h⟩ := bind_eq_ok.mp h
        by_cases hst : b.stack.isEmpty = true
        · rw [if_pos hst] at h
          exact ⟨e, rest, b, rfl, he, hb, by simpa using hst, Except.ok.inj h⟩
        · rw [if_neg hst] at h
          cases h
      · unfold ofEvents at h
        dsimp only at h
        rw [if_pos he] at h
        cases h
  · rintro ⟨e, rest, b, rfl, he, hb, hst, rfl⟩
    rw [ofEvents_cons he, hb]
    change (if b.stack.isEmpty = true then _ else _) = _
    rw [hst]
    rfl

/-- Where no tree is built, the stream does not begin with a scope, an event is not read, or scopes
are left open. -/
lemma ofEvents_error (h : ofEvents es = .error f) :
    (∃ p, f.family = .unbalancedScopes p) ∨ ∃ e rest, es = e :: rest ∧ e.kind = .enter ∧
      ScopeBuilder.read { tree := { events := es } } es = .error f := by
  cases es with
  | nil =>
    obtain rfl := Except.error.inj h
    exact .inl ⟨0, rfl⟩
  | cons e rest =>
    by_cases he : e.kind = .enter
    · rw [ofEvents_cons he] at h
      cases hb : ScopeBuilder.read { tree := { events := e :: rest } } (e :: rest) with
      | error f' =>
        rw [hb] at h
        exact .inr ⟨e, rest, rfl, he, by rw [Except.error.inj h]⟩
      | ok b =>
        rw [hb] at h
        change (if b.stack.isEmpty = true then _ else _) = _ at h
        split at h
        · cases h
        · obtain rfl := Except.error.inj h
          exact .inl ⟨_, rfl⟩
    · unfold ofEvents at h
      dsimp only at h
      rw [if_pos he] at h
      obtain rfl := Except.error.inj h
      exact .inl ⟨0, rfl⟩

lemma ofEvents_of_read {rest : List Event} (he : e.kind = .enter)
    (h : ScopeBuilder.read { tree := { events := e :: rest } } (e :: rest) = .error f) :
    ofEvents (e :: rest) = .error f := by
  rw [ofEvents_cons he, h]
  rfl

variable (hk : ∀ e ∈ es, e.kind = .step → e.node.isKnown = true)

include hk

/-- A tree is built exactly from streams with matching brackets. -/
lemma exists_ofEvents_iff : (∃ t, ofEvents es = .ok t) ↔
      WellBracketed es ∧ ∀ e ∈ es, e.kind = .step → e.node.isBlock = false := by
  constructor
  · rintro ⟨t, ht⟩
    obtain ⟨e, rest, b, rfl, he, hb, hst, -⟩ := ofEvents_eq_ok_iff.mp ht
    exact ⟨wellBracketed_of_read he hb hst, fun e he hs => (known_of_read hb e he hs).2⟩
  · rintro ⟨hw, hn⟩
    rcases read_of_wellBracketed { events := es } hw
      (fun e he hs => Node.executes_of_known (hk e he hs) (hn e he hs))
      with ⟨b, hb, hst⟩ | ⟨e, he, hs, hbad, -⟩
    · obtain ⟨opening, inner, closing, rfl, ho, -⟩ := hw
      exact ⟨b.tree, ofEvents_eq_ok_iff.mpr ⟨opening, _, b, rfl, ho, hb, hst, rfl⟩⟩
    · rw [hk e he hs] at hbad
      cases hbad

/-- Whether a stream comes to a block that is executed, while scopes are open. -/
def ReachesBlock (es : List Event) : Prop :=
  ∃ before e after, es = before ++ e :: after ∧ Unclosed before ∧
    (∀ x ∈ before, x.kind = .step → x.node.isBlock = false) ∧ e.kind = .step ∧ e.node.isBlock = true

omit hk in
lemma unclosed_of_read (he : e.kind = .enter) (h : ScopeBuilder.read { tree } (e :: es) = .ok b)
    (hb : b.closed = false) (hne : b.labels ≠ []) : Unclosed (e :: es) := by
  obtain ⟨exits, b', hexits, hall, hread, hst⟩ := exists_exits hb hne
  refine ⟨by simp, exits, hexits, hall, ?_⟩
  exact wellBracketed_of_read he (read_append_eq_ok.mpr ⟨b, h, hread⟩) hst

/-- Exactly the streams of known nodes that come to a block are refused for it. -/
lemma unexpectedStep_iff : ofEvents es = .error (.unexpectedStep "Block") ↔ ReachesBlock es := by
  constructor
  · intro h
    rcases ofEvents_error h with ⟨p, hp⟩ | ⟨opening, rest, rfl, ho, hread⟩
    · cases hp
    obtain ⟨before, e, after, m, hsplit, hm, hstep⟩ := read_error hread
    rcases step_error hstep (hk e (by simp [hsplit])) with ⟨p, hp⟩ | ⟨hmc, hne, hs, hn, -⟩
    · cases hp
    refine ⟨before, e, after, hsplit, ?_, fun x hx hxs => (known_of_read hm x hx hxs).2, hs, hn⟩
    cases before with
    | nil =>
      cases hm
      exact absurd rfl hne
    | cons first before =>
      obtain ⟨rfl, -⟩ := cons.inj hsplit
      exact unclosed_of_read ho hm hmc hne
  · rintro ⟨before, e, after, rfl, ⟨hne, exits, hexits, hall, hw⟩, hnb, hs, hn⟩
    have hexec : ∀ x ∈ before ++ exits, x.kind = .step → x.node.executes = true := by
      intro x hx hxs
      rcases mem_append.mp hx with hx | hx
      · exact Node.executes_of_known (hk x (by simp [hx]) hxs) (hnb x hx hxs)
      · rw [hall x hx] at hxs
        cases hxs
    rcases read_of_wellBracketed { events := before ++ e :: after } hw hexec
      with ⟨b, hb, -⟩ | ⟨x, hx, hxs, hbad, -⟩
    swap
    · rcases mem_append.mp hx with hx | hx
      · rw [hk x (by simp [hx]) hxs] at hbad
        cases hbad
      · rw [hall x hx] at hxs
        cases hxs
    -- The first of the missing exits can be read, so a scope is open.
    obtain ⟨m, hm, hread⟩ := read_append_eq_ok.mp hb
    obtain ⟨x, exits, rfl⟩ := exists_cons_of_ne_nil hexits
    obtain ⟨m', hm', -⟩ := read_cons_eq_ok.mp hread
    obtain ⟨hmc, hreads⟩ := step_eq_ok_iff.mp hm'
    have hx : x.kind = .exit := hall x mem_cons_self
    obtain ⟨top, rest, hst⟩ : ∃ top rest, m.stack = top :: rest := by
      cases hreads with
      | enter he => rw [hx] at he; cases he
      | exit _ hst _ => exact ⟨_, _, hst⟩
      | step he _ _ _ => rw [hx] at he; cases he
    have hstep : m.step e = .error (.unexpectedStep "Block") := by
      unfold Node.isBlock at hn
      split at hn
      · rename_i body hnode
        simp only [step, hmc, hs, Bool.false_eq_true, if_false, run, hst, isEmpty_cons, hnode]
        rfl
      · cases hn
    obtain ⟨first, before, rfl⟩ := exists_cons_of_ne_nil hne
    obtain ⟨opening, inner, closing, heq, ho, -⟩ := hw
    obtain ⟨rfl, -⟩ := cons.inj heq
    have hstop : ScopeBuilder.read { tree := { events := first :: before ++ e :: after } }
        (first :: before ++ e :: after) = .error (.unexpectedStep "Block") := by
      rw [read_append, hm]
      change m.read (e :: after) = _
      rw [ScopeBuilder.read, hstep]
      rfl
    exact ofEvents_of_read ho hstop

lemma unbalanced_of_error (h : ofEvents es = .error f) :
    (∃ p, f.family = .unbalancedScopes p) ∨ f = .unexpectedStep "Block" := by
  rcases ofEvents_error h with hp | ⟨opening, rest, rfl, ho, hread⟩
  · exact .inl hp
  · obtain ⟨before, e, after, m, hsplit, -, hstep⟩ := read_error hread
    rcases step_error hstep (hk e (by simp [hsplit])) with hp | ⟨-, -, -, -, hf⟩
    · exact .inl hp
    · exact .inr hf

end ScopeTree

end Ownership
