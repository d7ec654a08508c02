import Ownership.Proofs.Guise.Reports
import Ownership.Proofs.Sketch.Pieces
import Ownership.Proofs.Sketch.Renumbering
import Ownership.Sketch.Analysis

/-!
# The order of declarations

Types may be declared anywhere in a sketch. If the declarations of a text are put in another order
in which the functions follow each other as before, and so do the signatures, the text is still
read, and the analysis of every function has the same outcome: the numbers that types get do not
show.
-/

namespace Ownership

open List

/-! ### Outcomes -/

/-- What a report says of a function, without a word on where it stands. -/
def Report.outcome (r : Report) : String × List Finding × List Drop :=
  (r.function, r.findings.map Guise.bare.finding, r.drops)

namespace Program

/-- The outcome of the analysis of each function, or why there is none. -/
def outcomes (p : Program) (o : Options) :
    List (String × Except Failure (String × List Finding × List Drop)) :=
  p.functions.map fun f => (f.name, Report.outcome <$> p.analyzeFunction f o)

/-- The findings by function, without a word on where it stands. -/
def bareFindings (p : Program) (o : Options) : Except Failure (List (String × List Finding)) :=
  map (Prod.map id (map Guise.bare.finding)) <$> p.analyze o

lemma bareFindings_eq (p : Program) (o : Options) : p.bareFindings o =
    match repeatedName? [] ((p.outcomes o).map Prod.fst) with
    | some name => .error { fault := .duplicateFunction name }
    | none => map (fun r => (r.1, r.2.1)) <$> (p.outcomes o).mapM Prod.snd := by
  have hall : ∀ fs, map (Prod.map id (map Guise.bare.finding)) <$> p.analyzeAll o fs =
      map (fun r => (r.1, r.2.1)) <$>
        (fs.map fun f => (f.name, Report.outcome <$> p.analyzeFunction f o)).mapM Prod.snd := by
    intro fs
    induction fs with
    | nil => rfl
    | cons f fs ih =>
      rw [map_cons, mapM_cons, analyzeAll]
      cases p.analyzeFunction f o with
      | error failure => rfl
      | ok r =>
        have hcons :=
          congrArg (Except.map (cons (r.function, r.findings.map Guise.bare.finding))) ih
        generalize p.analyzeAll o fs = found at hcons ⊢
        generalize mapM (m := Except Failure) Prod.snd _ = stated at hcons ⊢
        cases found <;> cases stated <;> exact hcons
  have hnames : (p.outcomes o).map Prod.fst = p.functions.map (·.name) := by
    rw [outcomes, map_map]
    rfl
  rw [bareFindings, analyze, hnames]
  cases repeatedName? [] (p.functions.map (·.name)) with
  | some name => rfl
  | none => exact hall p.functions

end Program

namespace Guise

variable {g : Guise} {p q : Program}

lemma outcome_report (hm : g.moves = true) (hw : g.writes = true) (hv : g.coverage = true)
    (r : Report) : (g.report r).outcome = r.outcome := by
  have hkeeps : ∀ v, g.keeps v = true := by
    intro v
    cases v <;> simp [keeps, hm, hw, hv]
  have hbare : ∀ f, bare.finding (g.finding f) = bare.finding f := by
    rintro ⟨pos, span, v⟩
    cases v <;> rfl
  simp [Report.outcome, report, findings, hkeeps, hbare]

lemma outcomes_eq (hm : g.moves = true) (hw : g.writes = true) (hv : g.coverage = true)
    (h : g.OnProgram p.warm q.warm) (hfunctions : q.functions = p.functions.map g.function)
    (o : Options) : q.outcomes o = p.outcomes o := by
  have hoptions : g.options o = o := by simp [options, hm, hw, hv]
  rw [Program.outcomes, Program.outcomes, hfunctions, map_map]
  refine map_congr_left fun f _ => Prod.ext rfl ?_
  have hreport := analyzeFunction_function (f := f) (o := o) hv h
  rw [hoptions] at hreport
  rw [Function.comp_apply, hreport]
  cases p.analyzeFunction f o with
  | error failure => rfl
  | ok r => exact congrArg Except.ok (outcome_report hm hw hv r)

lemma outcomes_bare (p : Program) (o : Options) : p.bare.outcomes o = p.outcomes o := by
  refine outcomes_eq (g := bare) rfl rfl rfl ?_ rfl o
  refine .of_functions (.self (fun _ => rfl) _) rfl fun callee => ?_
  have hsignature : bare.signature = id := funext (signature_eq_self fun _ => rfl)
  rw [hsignature, Option.map_id_fun, id, Program.warm, Program.bare]
  rfl

end Guise

namespace Sketch

/-! ### Pieces in another order -/

def begins (k : Keyword) (ws : List TokenKind) : Bool := ws.head? = some (.keyword k)

/-- The same pieces, with the functions and the signatures in their order. -/
@[mk_iff]
structure Reordered (pieces pieces' : List (List TokenKind)) : Prop where
  perm : pieces.Perm pieces'
  functions : pieces.filter (begins .function) = pieces'.filter (begins .function)
  signatures : pieces.filter (begins .outside) = pieces'.filter (begins .outside)

instance (pieces pieces' : List (List TokenKind)) : Decidable (Reordered pieces pieces') :=
  decidable_of_iff _ (reordered_iff pieces pieces').symm

variable {depth : Nat} {ws : List TokenKind} {pieces pieces' : List (List TokenKind)} {i : Item}
  {is : List Item} {text text' : String} {file : Option String} {p : Program}

/-- All that the reader gives has the property. -/
def Gives {α : Type} (P : α → Prop) (r : Reader α) : Prop := ∀ c a d, r c = .ok (a, d) → P a

lemma Gives.pure {α : Type} {P : α → Prop} {a : α} (h : P a) : Gives P (Pure.pure a) := by
  intro c x d hx
  cases hx
  exact h

lemma Gives.bind {α β : Type} {P : β → Prop} {r : Reader α} {f : α → Reader β}
    (h : ∀ a, Gives P (f a)) : Gives P (r >>= f) := by
  intro c x d hx
  obtain ⟨a, c', -, hf⟩ := Reader.Echoes.exists_of_bind hx
  exact h a c' x d hf

lemma kind_of_item {c d : Cursor} (h : item depth c = .ok (i, d)) :
    i.isFunction = begins .function c.kinds ∧ i.isOutside = begins .outside c.kinds := by
  obtain ⟨start, c₁, hstart, h⟩ := Reader.Echoes.exists_of_bind h
  cases hstart
  obtain ⟨k, c₁, hk, h⟩ := Reader.Echoes.exists_of_bind h
  cases hk
  rw [begins, begins, Cursor.kinds, head?_map]
  generalize c.rest.head?.map Token.kind = k at h ⊢
  split at h
  · exact Gives.bind (P := fun i => i.isFunction = false ∧ i.isOutside = false)
      (fun _ => .bind fun _ =>
      .bind fun _ => .bind fun _ => .bind fun _ => .bind fun _ => .pure ⟨rfl, rfl⟩) _ _ _ h
  · exact Gives.bind (P := fun i => i.isFunction = false ∧ i.isOutside = false)
      (fun _ => .bind fun _ =>
      .bind fun _ => .bind fun _ => .bind fun _ => .pure ⟨rfl, rfl⟩) _ _ _ h
  · exact Gives.bind (P := fun i => i.isFunction = false ∧ i.isOutside = true)
      (fun _ => .bind fun _ =>
      .bind fun _ => .bind fun _ => .bind fun _ => .bind fun _ => .bind fun _ => .pure ⟨rfl,
        rfl⟩) _ _ _ h
  · exact Gives.bind (P := fun i => i.isFunction = true ∧ i.isOutside = false)
      (fun _ => .bind fun _ =>
      .bind fun _ => .bind fun _ => .bind fun _ => .bind fun _ => .bind fun _ => .pure ⟨rfl,
        rfl⟩) _ _ _ h
  · cases h

lemma kind_of_declared? (h : declared? depth ws = some i) :
    i.isFunction = begins .function ws ∧ i.isOutside = begins .outside ws := by
  obtain ⟨j, c, hj, -, rfl⟩ := declared?_eq_some_iff.1 h
  have hkind := kind_of_item hj
  rw [kinds_ofKinds] at hkind
  cases j <;> exact hkind

lemma filter_filterMap_declared? {kind : Item → Bool} {k : Keyword}
    (hkind : ∀ {ws i}, declared? depth ws = some i → kind i = begins k ws)
    (pieces : List (List TokenKind)) :
    (pieces.filterMap (declared? depth)).filter kind =
      (pieces.filter (begins k)).filterMap (declared? depth) := by
  rw [filter_filterMap, filterMap_filter]
  refine filterMap_congr fun ws _ => ?_
  cases hws : declared? depth ws with
  | none => simp
  | some i => simp [Option.filter, hkind hws]

lemma map_bare_eq
    (h : List.Forall₂ (fun ws (i : Item) => declared? depth ws = some i.bare) pieces is) :
    is.map Item.bare = pieces.filterMap (declared? depth) := by
  induction h with
  | nil => rfl
  | cons hi _ ih => rw [map_cons, filterMap_cons_some hi, ih]

/-- A text whose pieces are in another order is read, and each function has the same outcome. -/
lemma exists_parse_of_reordered (hp : parse text file = .ok p) (h : Cuts text pieces)
    (h' : Cuts text' pieces') (hr : Reordered pieces pieces') (file' : Option String) :
    ∃ p', parse text' file' = .ok p' ∧ ∀ o, p'.outcomes o = p.outcomes o := by
  obtain ⟨is, his, hread⟩ := items_of_cuts h file
  obtain ⟨is', his', hread'⟩ := items_of_cuts h' file'
  have hdepth : (scan text'.toList).tokens.length = (scan text.toList).tokens.length := by
    have hlength := hr.perm.flatten.length_eq
    rw [← h.kinds, ← h'.kinds, length_map, length_map] at hlength
    exact hlength.symm
  rw [hdepth] at hread'
  have hbuild : build is = .ok p := by rwa [parse, his] at hp
  have hitems := map_bare_eq hread
  have hitems' := map_bare_eq hread'
  have hperm : (is.map Item.bare).Perm (is'.map Item.bare) := by
    rw [hitems, hitems']
    exact hr.perm.filterMap _
  obtain ⟨q, ρ, hq, hon, hfunctions⟩ := exists_build_of_perm hperm
    (by rw [hitems, hitems', filter_filterMap_declared? (kind_of_declared? · |>.1), hr.functions,
      filter_filterMap_declared? (kind_of_declared? · |>.1)])
    (by rw [hitems, hitems', filter_filterMap_declared? (kind_of_declared? · |>.2), hr.signatures,
      filter_filterMap_declared? (kind_of_declared? · |>.2)])
    (build_map_bare_of_ok hbuild)
  obtain ⟨p', hp', rfl⟩ := exists_build_of_map_bare hq
  refine ⟨p', by rwa [parse, his'], fun o => ?_⟩
  rw [← Guise.outcomes_bare p', ← Guise.outcomes_bare p]
  exact Guise.outcomes_eq rfl rfl rfl hon hfunctions o

/-- The order in which types are declared does not matter. A text that is read can be cut into its
declarations. A text with these declarations in another order, where the functions keep theirs and
so do the signatures, is read as well. The analysis of each function then has the same findings,
but for spans, or the same fault, and so has the analysis of the whole program. -/
theorem analyze_reordered (hp : parse text file = .ok p) :
    (∃ pieces, Cuts text pieces) ∧
      ∀ pieces pieces' text' file', Cuts text pieces → Cuts text' pieces' →
        Reordered pieces pieces' →
        ∃ p', parse text' file' = .ok p' ∧
          ∀ o, p'.outcomes o = p.outcomes o ∧ p'.bareFindings o = p.bareFindings o := by
  constructor
  · cases his : items file text.toList with
    | error spot =>
      rw [parse, his] at hp
      cases hp
    | ok is => exact exists_cuts his
  · intro pieces pieces' text' file' h h' hr
    obtain ⟨p', hp', houtcomes⟩ := exists_parse_of_reordered hp h h' hr file'
    refine ⟨p', hp', fun o => ⟨houtcomes o, ?_⟩⟩
    rw [Program.bareFindings_eq, Program.bareFindings_eq, houtcomes]

def kindsOf (text : String) : List TokenKind := (scan text.toList).tokens.map Token.kind

/-- Declarations of which some name others; the function uses what it moved. -/
def samples : List String := ["struct S{v:Vec}", "fn f(s:S){let t=s;s;}", "type E=A(S)|B;"]

/-- The same declarations, with the types at other places. -/
def shuffledSamples : List String := ["fn f(s:S){let t=s;s;}", "type E=A(S)|B;", "struct S{v:Vec}"]

theorem analyze_reordered_samples :
    ∃ p, parse (String.join samples) none = .ok p ∧
      Cuts (String.join samples) (samples.map kindsOf) ∧
      Cuts (String.join shuffledSamples) (shuffledSamples.map kindsOf) ∧
      Reordered (samples.map kindsOf) (shuffledSamples.map kindsOf) ∧
      ∃ p', parse (String.join shuffledSamples) none = .ok p' ∧
        ∀ o, p'.outcomes o = p.outcomes o ∧ p'.bareFindings o = p.bareFindings o := by
  have hcuts : Cuts (String.join samples) (samples.map kindsOf) := by decide +kernel
  have hcuts' : Cuts (String.join shuffledSamples) (shuffledSamples.map kindsOf) := by
    decide +kernel
  have hr : Reordered (samples.map kindsOf) (shuffledSamples.map kindsOf) := by decide +kernel
  have hok : (parse (String.join samples) none).isOk = true := by decide +kernel
  cases hp : parse (String.join samples) none with
  | error e =>
    rw [hp] at hok
    cases hok
  | ok p => exact ⟨p, rfl, hcuts, hcuts', hr, (analyze_reordered hp).2 _ _ _ none hcuts hcuts' hr⟩

end Sketch

end Ownership
