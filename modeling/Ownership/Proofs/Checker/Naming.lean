import Ownership.Proofs.Control.Frames
import Ownership.Proofs.Moves.Overlaps
import Mathlib.Data.List.Induction

/-!
# What findings name

A finding cites its place by a text. The text can be read from its outside: behind a closing
parenthesis stands what was dereferenced last, else the last dot stands before the last field, and
without a dot there are only dereferences in front of the name. So the texts of two places of one
binding differ, and a finding whose message has such a text is dropped only if it repeats one about
the same place. Two kinds of findings cite the binding alone: uses without a value, and changes of
something immutable. They are dropped if they repeat one about another place of the binding.
-/

namespace Ownership

open List

/-! ### Texts of paths -/

/-- Whether a name is not empty and has none of the characters that are put around names in texts of
places. -/
def PlainName (name : String) : Prop := name ≠ "" ∧ ∀ c ∈ ['.', '*', '(', ')'], c ∉ name.toList

instance (name : String) : Decidable (PlainName name) :=
  -- Only the four characters are tried, although there are finitely many.
  @instDecidableAnd _ _ _ (decidableBAll _ _)

namespace Projection

variable {text text' : List Char} {name : String} {step : Projection}

/-- Whether the name of a field is plain. -/
def Plain : Projection → Prop
  | field name => PlainName name
  | deref => True

instance : DecidablePred Plain
  | field name => inferInstanceAs (Decidable (PlainName name))
  | deref => inferInstanceAs (Decidable True)

/-- The text of a place with one more projection. -/
def extend (text : List Char) : Projection → List Char
  | field name => text ++ '.' :: name.toList
  | deref => if '.' ∈ text then '(' :: '*' :: text ++ [')'] else '*' :: text

lemma render_concat (text : List Char) (path : List Projection) (step : Projection) :
    render text (path ++ [step]) = extend (render text path) step := by
  induction path generalizing text with
  | nil => cases step <;> rfl
  | cons first rest ih => cases first <;> exact ih _

/-! ### Reading a text from its outside -/

lemma dot_mem_extend_deref : '.' ∈ extend text deref ↔ '.' ∈ text := by
  by_cases h : '.' ∈ text <;> simp [extend, h]

lemma star_mem_extend_deref : '*' ∈ extend text deref := by
  by_cases h : '.' ∈ text <;> simp [extend, h]

lemma dot_mem_extend_field : '.' ∈ extend text (field name) :=
  mem_append_right _ mem_cons_self

/-- The last dot of a text stands before the last field. -/
lemma append_dot_inj {name name' : List Char} (hname : '.' ∉ name) (hname' : '.' ∉ name')
    (h : text ++ '.' :: name = text' ++ '.' :: name') : text = text' ∧ name = name' := by
  rcases append_eq_append_iff.mp h with ⟨between, htext, hrest⟩ | ⟨between, htext, hrest⟩
  · cases between with
    | nil => exact ⟨by simpa using htext.symm, (cons.inj hrest).2⟩
    | cons c between =>
      refine absurd ?_ hname
      rw [(cons.inj hrest).2]
      exact mem_append_right _ mem_cons_self
  · cases between with
    | nil => exact ⟨by simpa using htext, (cons.inj hrest).2.symm⟩
    | cons c between =>
      refine absurd ?_ hname'
      rw [(cons.inj hrest).2]
      exact mem_append_right _ mem_cons_self

/-- A text with a dot ends with a parenthesis exactly if something was dereferenced last. -/
lemma extend_field_ne_extend_deref (hname : PlainName name) :
    extend text (field name) ≠ extend text' deref := by
  intro h
  have hdot : '.' ∈ text' := dot_mem_extend_deref.mp (h ▸ dot_mem_extend_field)
  have hlast : (extend text (field name)).getLast? = some ')' := by
    rw [h, extend, if_pos hdot, getLast?_append]
    rfl
  have hne : '.' :: name.toList ≠ [] := cons_ne_nil _ _
  rw [extend, getLast?_append, getLast?_eq_some_getLast hne, Option.some_or] at hlast
  rcases mem_cons.mp (Option.some.inj hlast ▸ getLast_mem hne) with hmem | hmem
  · exact absurd hmem (by decide)
  · exact hname.2 ')' (by simp) hmem

/-- What is around the last projection can be told from the text. -/
lemma extend_inj {step' : Projection} (hstep : step.Plain) (hstep' : step'.Plain)
    (h : extend text step = extend text' step') : text = text' ∧ step = step' := by
  cases step with
  | field name =>
    cases step' with
    | field name' =>
      obtain ⟨htext, hname⟩ := append_dot_inj (hstep.2 '.' (by simp)) (hstep'.2 '.' (by simp)) h
      exact ⟨htext, congrArg field (String.toList_inj.mp hname)⟩
    | deref => exact absurd h (extend_field_ne_extend_deref hstep)
  | deref =>
    cases step' with
    | field name' => exact absurd h.symm (extend_field_ne_extend_deref hstep')
    | deref =>
      have hdot : '.' ∈ text ↔ '.' ∈ text' := by
        rw [← dot_mem_extend_deref, h, dot_mem_extend_deref]
      by_cases htext : '.' ∈ text
      · rw [extend, extend, if_pos htext, if_pos (hdot.mp htext)] at h
        simpa using h
      · rw [extend, extend, if_neg htext, if_neg (mt hdot.mpr htext)] at h
        simpa using h

/-- Whatever is projected leaves a mark that is in no plain name. -/
lemma extend_ne_name (hname : PlainName name) : extend text step ≠ name.toList := by
  intro h
  cases step with
  | field n => exact hname.2 '.' (by simp) (h ▸ dot_mem_extend_field)
  | deref => exact hname.2 '*' (by simp) (h ▸ star_mem_extend_deref)

/-- The text of a path determines its name and its steps. -/
lemma render_inj {name' : String} {path path' : List Projection} (hname : PlainName name)
    (hname' : PlainName name') (hpath : ∀ step ∈ path, step.Plain)
    (hpath' : ∀ step ∈ path', step.Plain)
    (h : render name.toList path = render name'.toList path') :
    name = name' ∧ path = path' := by
  -- From the last projection to the first: both texts lose it at the same time.
  induction path using reverseRecOn generalizing path' with
  | nil =>
    rcases eq_nil_or_concat path' with rfl | ⟨rest', step', rfl⟩
    · exact ⟨String.toList_inj.mp h, rfl⟩
    · rw [concat_eq_append, render_concat] at h
      exact absurd h.symm (extend_ne_name hname)
  | append_singleton rest step ih =>
    rw [render_concat] at h
    rcases eq_nil_or_concat path' with rfl | ⟨rest', step', rfl⟩
    · exact absurd h (extend_ne_name hname')
    · rw [concat_eq_append] at hpath' h ⊢
      rw [render_concat] at h
      obtain ⟨htext, hstep⟩ := extend_inj (hpath step (by simp)) (hpath' step' (by simp)) h
      obtain ⟨hbase, hrest⟩ := ih (fun s hs => hpath s (mem_append_left _ hs))
        (fun s hs => hpath' s (mem_append_left _ hs)) htext
      exact ⟨hbase, by rw [hrest, hstep]⟩

end Projection

/-! ### Texts of places -/

namespace Place

/-- Whether the names of the binding and of all fields of a place are plain. -/
def Plain (p : Place) : Prop := PlainName p.base.name ∧ ∀ step ∈ p.path, step.Plain

instance (p : Place) : Decidable p.Plain := inferInstanceAs (Decidable (_ ∧ _))

lemma describe_inj {p q : Place} (hp : p.Plain) (hq : q.Plain) (h : p.describe = q.describe) :
    p.base.name = q.base.name ∧ p.path = q.path :=
  Projection.render_inj hp.1 hq.1 hp.2 hq.2 (String.ofList_inj.mp h)

lemma eq_of_describe {p q : Place} (hp : p.Plain) (hq : q.Plain) (hbase : p.base = q.base)
    (h : p.describe = q.describe) : p = q := by
  obtain ⟨-, hpath⟩ := describe_inj hp hq h
  cases p
  cases q
  exact Place.mk.injEq .. ▸ ⟨hbase, hpath⟩

end Place

/-! ### The place that a message names -/

namespace Violation

/-- The text of the place that the message of a violation names. A use of something without a value
and a change of something immutable name the whole binding. -/
def subject? : Violation → Option String
  | useAfterMove _ place .. | moveWhileBorrowed _ place _ | borrowOfMoved _ place ..
  | writeWhileBorrowed _ place _ => some place
  | aliasConflict _ _ requested => some requested.place
  | danglingBorrow b .. => some b.place
  | useOfUninitialized binding | mutability binding _ => some binding
  | nonExhaustiveMatch .. | unreachableArm .. | unknownVariant .. | nonVariantScrutinee .. => none

/-- Whether a violation names a place. -/
def Names (v : Violation) (p : Place) : Prop := v.subject? = some p.describe

/-- The codes of all violations. -/
def codes : List String :=
  ["E_USE_AFTER_MOVE", "E_USE_UNINIT", "E_MOVE_WHILE_BORROWED", "E_ALIAS_CONFLICT",
    "E_BORROW_OF_MOVED",
    "E_DANGLING_BORROW", "E_WRITE_WHILE_BORROWED", "E_MUTABILITY", "E_MATCH_NONEXHAUSTIVE",
    "E_MATCH_UNREACHABLE_ARM", "E_MATCH_UNKNOWN_VARIANT", "E_MATCH_NOT_VARIANT"]

/-- Every kind of violation has a code of its own. -/
lemma ctorIdx_eq_of_code {v w : Violation} (h : v.code = w.code) : v.ctorIdx = w.ctorIdx := by
  have hcodes : ∀ x : Violation, codes.idxOf x.code = x.ctorIdx := by
    intro x
    cases x <;> rfl
  rw [← hcodes v, ← hcodes w, h]

lemma sentence_inj (before after : String) {x y : String}
    (h : before ++ x ++ after = before ++ y ++ after) : x = y := by
  have hlist := congrArg String.toList h
  simp only [String.toList_append] at hlist
  exact String.toList_inj.mp (append_cancel_left (append_cancel_right hlist))

/-- Sentences that are the same have begun with the same words. -/
lemma words_of_sentence (before before' : String) {x x' after after' : String}
    (h : before ++ x ++ after = before' ++ x' ++ after') :
    before.toList <+: before'.toList ∨ before'.toList <+: before.toList := by
  have hlist := congrArg String.toList h
  simp only [String.toList_append, append_assoc] at hlist
  exact prefix_or_prefix_of_prefix (hlist ▸ prefix_append _ _) (prefix_append _ _)

/-- Two violations with the same code and the same message name the same place. -/
lemma subject?_eq_of_message {v w : Violation} (hcode : v.code = w.code)
    (hmessage : v.message = w.message) : v.subject? = w.subject? := by
  have hkind := ctorIdx_eq_of_code hcode
  cases v with
  | useAfterMove _ place =>
    cases w <;> cases hkind
    exact congrArg some (sentence_inj "use after move of '" "'" hmessage)
  | useOfUninitialized binding =>
    cases w <;> cases hkind
    exact congrArg some (sentence_inj "use of possibly uninitialized '" "'" hmessage)
  | moveWhileBorrowed _ place =>
    cases w <;> cases hkind
    exact congrArg some (sentence_inj "cannot move '" "' while borrowed" hmessage)
  | aliasConflict _ _ requested =>
    cases w <;> cases hkind
    rename_i requested'
    obtain ⟨place, kind, start, stop⟩ := requested
    obtain ⟨place', kind', start', stop'⟩ := requested'
    -- The sentence depends on the kind of the request.
    cases kind <;> cases kind'
    · exact congrArg some (sentence_inj "cannot access '" "' while it is mutably borrowed" hmessage)
    · exact absurd (words_of_sentence "cannot access '" "cannot borrow '" hmessage) (by decide)
    · exact absurd (words_of_sentence "cannot borrow '" "cannot access '" hmessage) (by decide)
    · exact congrArg some (sentence_inj "cannot borrow '" "' as mutable while it is borrowed"
        hmessage)
  | borrowOfMoved _ place =>
    cases w <;> cases hkind
    exact congrArg some (sentence_inj "cannot borrow '" "': value moved" hmessage)
  | danglingBorrow b _ viaReturn =>
    cases w <;> cases hkind
    rename_i b' _ viaReturn'
    cases viaReturn <;> cases viaReturn'
    · exact congrArg some (sentence_inj "'" "' does not live long enough" hmessage)
    · exact absurd (words_of_sentence "'" "borrow of '" hmessage) (by decide)
    · exact absurd (words_of_sentence "borrow of '" "'" hmessage) (by decide)
    · exact congrArg some (sentence_inj "borrow of '" "' escapes the function" hmessage)
  | writeWhileBorrowed _ place =>
    cases w <;> cases hkind
    exact congrArg some (sentence_inj "cannot write to '" "' while it is borrowed" hmessage)
  | mutability binding action =>
    cases w <;> cases hkind
    rename_i binding' action'
    unfold message at hmessage
    dsimp only at hmessage
    split at hmessage <;> split at hmessage
    · exact congrArg some
        (sentence_inj "cannot borrow immutable binding '" "' as mutable" hmessage)
    · exact absurd (words_of_sentence "cannot borrow immutable binding '"
        "cannot assign twice to immutable binding '" hmessage) (by decide)
    · exact absurd (words_of_sentence "cannot assign twice to immutable binding '"
        "cannot borrow immutable binding '" hmessage) (by decide)
    · exact congrArg some (sentence_inj "cannot assign twice to immutable binding '" "'" hmessage)
  | nonExhaustiveMatch | unreachableArm | unknownVariant | nonVariantScrutinee =>
    cases w <;> cases hkind
    rfl

end Violation

lemma Finding.repeats_iff {f g : Finding} : f.repeats g = true ↔
    f.violation.code = g.violation.code ∧ f.pos = g.pos ∧
      f.violation.message = g.violation.message := by
  simp [Finding.repeats, and_assoc]

/-! ### Findings that are recorded for one place -/

namespace Session

/-- Whether there is a recorded finding with the code and the position of another one that names a
place, and that names no other place of the same binding. -/
def RecordsFor (s : Session) (f : Finding) (p : Place) : Prop :=
  ∃ g ∈ s.findings, g.violation.code = f.violation.code ∧ g.pos = f.pos ∧
    ∀ q : Place, q.Plain → q.base = p.base → (g.violation.Names q ↔ q = p)

variable {s : Session} {f : Finding} {p : Place}

lemma RecordsFor.mono {s' : Session} (h : s.RecordsFor f p) (hle : s.findings <+: s'.findings) :
    s'.RecordsFor f p := by
  obtain ⟨g, hg, hrest⟩ := h
  exact ⟨g, hle.subset hg, hrest⟩

/-- What a finding that names a place repeats has been recorded for that place. -/
lemma recordsFor_of_repeats (hp : p.Plain) (hf : f.violation.Names p)
    (h : ∃ g ∈ s.findings, f.repeats g = true) : s.RecordsFor f p := by
  obtain ⟨g, hg, hrepeats⟩ := h
  obtain ⟨hcode, hpos, hmessage⟩ := Finding.repeats_iff.mp hrepeats
  have hsubject : g.violation.subject? = some p.describe := by
    rw [← Violation.subject?_eq_of_message hcode hmessage]
    exact hf
  refine ⟨g, hg, hcode.symm, hpos.symm,
    fun q hq hbase => ⟨fun hnames => ?_, fun heq => heq ▸ hsubject⟩⟩
  exact Place.eq_of_describe hq hp hbase (Option.mem_unique hnames hsubject)

/-- Whether a report is recorded or dropped, what is recorded then names the place that it names. -/
lemma recordsFor_report (hp : p.Plain) (hf : f.violation.Names p) (s : Session) :
    (s.report f).RecordsFor f p :=
  recordsFor_of_repeats hp hf (exists_repeats_report s f)

/-- Reports violations at a position one after another. -/
def reportAll (pos : Int) (span : Span) (vs : List Violation) (s : Session) : Session :=
  vs.foldl (fun s v => s.report ⟨pos, span, v⟩) s

lemma findings_reportAll (pos : Int) (span : Span) (vs : List Violation) (s : Session) :
    s.findings <+: (s.reportAll pos span vs).findings := by
  induction vs generalizing s with
  | nil => exact prefix_refl _
  | cons v vs ih => exact (findings_report s _).trans (ih _)

lemma reportAll_append (pos : Int) (span : Span) (vs ws : List Violation) (s : Session) :
    s.reportAll pos span (vs ++ ws) = (s.reportAll pos span vs).reportAll pos span ws :=
  foldl_append

lemma reportAll_eq (pos : Int) (span : Span) (vs : List Violation) (s : Session) :
    s.reportAll pos span vs = { s with findings := (s.reportAll pos span vs).findings } := by
  induction vs generalizing s with
  | nil => rfl
  | cons v vs ih =>
    rw [reportAll, foldl_cons, ← reportAll, ih, report_eq]

lemma conflict?_reportAll (pos : Int) (span : Span) (vs : List Violation) (s : Session) :
    (s.reportAll pos span vs).conflict? = s.conflict? := by
  rw [reportAll_eq]
  rfl

/-- Each reported violation has been recorded or repeats what has been, whatever the spans. -/
lemma exists_repeats_reportAll {pos : Int} (span span' : Span) {vs : List Violation} {v : Violation}
    (hv : v ∈ vs) (s : Session) :
    ∃ g ∈ (s.reportAll pos span vs).findings, Finding.repeats ⟨pos, span', v⟩ g = true := by
  induction vs generalizing s with
  | nil => cases hv
  | cons w vs ih =>
    rcases mem_cons.mp hv with rfl | hv
    · obtain ⟨g, hg, hrepeats⟩ := exists_repeats_report s ⟨pos, span, v⟩
      exact ⟨g, (findings_reportAll pos span vs _).subset hg, hrepeats⟩
    · exact ih hv _

/-- Outside of replays nothing is dropped. -/
lemma reportAll_of_replay (pos : Int) (span : Span) (vs : List Violation) (s : Session)
    (h : s.replay = 0) :
    (s.reportAll pos span vs).findings = s.findings ++ vs.map fun v => ⟨pos, span, v⟩ := by
  induction vs generalizing s with
  | nil => exact (append_nil _).symm
  | cons v vs ih =>
    have hreport : (s.report ⟨pos, span, v⟩).findings = s.findings ++ [⟨pos, span, v⟩] := by
      simp [report, h]
    have hrest := ih (s.report ⟨pos, span, v⟩) ((replay_report s _).trans h)
    rw [hreport, append_assoc] at hrest
    exact hrest

end Session

/-! ### What accesses find -/

namespace Access

/-- The place that something is done to. -/
def place : Access → Place
  | read p | move p | write p | lend p _ => p

/-- Why an access is refused. -/
def refused? (f : Flow) : Access → Option Refusal
  | write p => f.writeRefusal? p
  | read p | move p | lend p _ => f.refusal? p

end Access

/-- Whether a violation names a place, or the binding of the place if it is of a kind that cites no
more. -/
def Violation.Cites (v : Violation) (p : Place) : Prop :=
  if v.code = "E_USE_UNINIT" ∨ v.code = "E_MUTABILITY" then v.subject? = some p.base.name
  else v.Names p

namespace Context

variable {c : Context} {s : Session} {a : Access} {p : Place} {pos : Int} {span : Span}
  {k : List Nat × Session}

/-- The violations that an access meets, as they are found where no loop is walked again. -/
def violations (c : Context) (pos : Int) (s : Session) (a : Access) :
    Except Fault (List Violation) :=
  (fun k => k.2.findings.map (·.violation)) <$>
    c.access pos .unknown { s with replay := 0, findings := [] } a

/-- What immutability and live loans make of an access that is not refused. -/
def objections (c : Context) (pos : Int) (s : Session) : Access → List Violation
  | .read p => (s.conflict? p .shared pos none).toList.map fun l =>
      (l.conflict p .shared pos .unknown).violation
  | .move p => if c.options.reportMovesWhileBorrowed then
      (s.conflict? p .exclusive pos none).toList.map fun l =>
        .moveWhileBorrowed p.base.name p.describe l.info else []
  | .write p =>
    (if c.options.checkMutability && !p.base.mutable && !s.flow.baseUninit p then
      [.mutability p.base.name "assign"] else []) ++ if c.options.reportWritesWhileBorrowed then
      (s.conflict? p .exclusive pos none).toList.map fun l =>
        .writeWhileBorrowed p.base.name p.describe l.info else []
  | .lend p kind =>
    if kind = .exclusive && c.options.checkMutability &&
      (c.typing.refPrefix? p).toOption = some none && !p.base.mutable then
      [.mutability p.base.name "borrow"]
    else (s.conflict? p kind pos ((s.sameLoan? p kind pos).map (·.id))).toList.map fun l =>
      (l.conflict p kind pos .unknown).violation

/-- What an access meets: that it is refused, or what speaks against it. -/
def meets (c : Context) (pos : Int) (s : Session) (a : Access) : List Violation :=
  match a.refused? s.flow with
  | some r => [(a.refusal s.flow pos .unknown r).violation]
  | none => c.objections pos s a

/-- What an access finds cites its place. -/
lemma cites_of_meets : ∀ v ∈ c.meets pos s a, v.Cites a.place := by
  have hloans : ∀ {p : Place} {violation : Loan → Violation} {l? : Option Loan},
      (∀ l, (violation l).Cites p) → ∀ v ∈ l?.toList.map violation, v.Cites p := by
    intro p violation l? h
    rw [forall_mem_map]
    exact fun l _ => h l
  unfold meets
  split
  · rename_i r hr
    rw [forall_mem_singleton]
    cases a <;> cases r <;> rfl
  · cases a with
    | read p => exact hloans fun _ => rfl
    | move p =>
      rw [objections]
      split
      · exact hloans fun _ => rfl
      · exact fun v hv => nomatch hv
    | write p =>
      refine forall_mem_append.mpr ⟨?_, ?_⟩
      · split
        · exact forall_mem_singleton.mpr rfl
        · exact fun v hv => nomatch hv
      · split
        · exact hloans fun _ => rfl
        · exact fun v hv => nomatch hv
    | lend p kind =>
      rw [objections]
      split
      · exact forall_mem_singleton.mpr rfl
      · exact hloans fun _ => rfl

/-- The first loan that stands against an access is reported, if there is one. -/
lemma report_toList (pos : Int) (span : Span) (violation : Loan → Violation) (l? : Option Loan)
    (s : Session) : (match l? with
      | some l => s.report ⟨pos, span, violation l⟩
      | none => s) = s.reportAll pos span (l?.toList.map violation) := by
  cases l? <;> rfl

section Reports

variable (hc : c.tracksLoans = true)

include hc

lemma findings_read (h : s.flow.refusal? p = none) : (c.read p pos span s).findings =
    (s.reportAll pos span (c.objections pos s (.read p))).findings := by
  simp only [read, h, noteRead, hc, if_true]
  exact congrArg Session.findings (report_toList ..)

lemma findings_move (h : s.flow.refusal? p = none) : (c.move p pos span s).findings =
    (s.reportAll pos span (c.objections pos s (.move p))).findings := by
  simp only [move, h]
  change (c.noteMove p pos span s).findings = _
  rw [noteMove, hc, Bool.true_and, objections]
  split
  · exact congrArg Session.findings (report_toList ..)
  · rfl

lemma findings_write (h : s.flow.writeRefusal? p = none) : (c.write p pos span s).findings =
    (s.reportAll pos span (c.objections pos s (.write p))).findings := by
  have hfirst : c.noteMutability p pos span s = s.reportAll pos span
      (if c.options.checkMutability && !p.base.mutable && !s.flow.baseUninit p then
        [.mutability p.base.name "assign"] else []) := by
    rw [noteMutability, hc, Bool.true_and]
    split <;> rfl
  have hloans : (c.noteMutability p pos span s).conflict? = s.conflict? := by
    rw [hfirst, Session.conflict?_reportAll]
  simp only [write, h]
  change (c.noteWrite p pos span _).findings = _
  rw [objections, Session.reportAll_append, ← hfirst, ← hloans, noteWrite, hc, Bool.true_and]
  split
  · exact congrArg Session.findings (report_toList ..)
  · rfl

/-- A borrow that is not refused reports its objections. -/
lemma findings_lend {kind : LoanKind} (hr : s.flow.refusal? p = none)
    (h : c.lend p kind pos span s = .ok k) :
    k.2.findings = (s.reportAll pos span (c.objections pos s (.lend p kind))).findings := by
  rw [lend, hc, Bool.not_true, if_neg Bool.false_ne_true, hr] at h
  obtain ⟨behind, hp, h⟩ := bind_eq_ok.mp h
  have hbehind : decide ((c.typing.refPrefix? p).toOption = some none) = behind.isNone := by
    rw [hp]
    cases behind <;> rfl
  rw [objections, hbehind]
  split at h
  · rename_i hmutable
    cases h
    rw [if_pos hmutable]
    rfl
  · rename_i hmutable
    rw [if_neg hmutable]
    cases hl : s.conflict? p kind pos ((s.sameLoan? p kind pos).map (·.id)) with
    | some l =>
      rw [hl] at h
      cases h
      rfl
    | none =>
      rw [hl] at h
      cases h
      rcases snd_grantLoan c p kind pos span behind s with hk | hk <;>
      · rw [hk]
        rfl

/-- An access reports all that it meets. -/
lemma findings_access (h : c.access pos span s a = .ok k) :
    k.2.findings = (s.reportAll pos span (c.meets pos s a)).findings := by
  unfold meets
  cases hr : a.refused? s.flow with
  | some r =>
    have hk : k.2 = s.report (a.refusal s.flow pos span r) := by
      cases a with
      | write p =>
        cases h
        have hr : s.flow.writeRefusal? p = some r := hr
        simp only [write, hr, Access.refusal]
      | read p | move p | lend p kind =>
        exact congrArg Prod.snd (Except.ok.inj (h.symm.trans (access_of_refusal hc rfl hr)))
    rw [hk]
    cases a <;> cases r <;> rfl
  | none =>
    cases a with
    | read p =>
      cases h
      exact findings_read hc hr
    | move p =>
      cases h
      exact findings_move hc hr
    | write p =>
      cases h
      exact findings_write hc hr
    | lend p kind => exact findings_lend hc hr h

/-- Whether an access is possible depends neither on what has been found nor on the span. -/
lemma exists_access (h : c.access pos span s a = .ok k) (replay : Nat) (findings : List Finding)
    (span' : Span) : ∃ k', c.access pos span' { s with replay, findings } a = .ok k' := by
  cases a with
  | read p | move p | write p => exact ⟨_, rfl⟩
  | lend p kind =>
    rcases lend_cases hc h with ⟨r, hr, -⟩ | ⟨behind, hr, hp, -⟩
    · exact ⟨_, access_of_refusal (p := p) (r := r) hc rfl hr⟩
    · exact lend_completes hc hr hp

/-- What an access meets in a session is what it finds there. -/
lemma violations_eq (h : c.access pos span s a = .ok k) :
    c.violations pos s a = .ok (c.meets pos s a) := by
  obtain ⟨k', hk'⟩ := exists_access hc h 0 [] .unknown
  have hmeets : c.meets pos { s with replay := 0, findings := [] } a = c.meets pos s a := by
    unfold meets
    cases a <;> rfl
  have hfound := findings_access hc hk'
  rw [hmeets, Session.reportAll_of_replay _ _ _ _ rfl] at hfound
  rw [violations, hk']
  refine congrArg Except.ok ?_
  change k'.2.findings.map (·.violation) = _
  rw [hfound, nil_append, map_map]
  exact map_id _

end Reports

/-- Texts of places are unambiguous: places with plain names and the same text have bindings of the
same name and the same path. So a finding that names a place and is dropped because it repeats a
recorded one has been recorded for its place, and for no other place of the binding. Whatever an
access meets on a walk, in a replay or not, is among the findings: a use without a value and a
change of something immutable are found for the binding, and everything else is found for the place
of the access and for no other place of its binding. The same holds of a loan that dangles and of
its place. -/
theorem reports_keep_places_apart :
    (∀ p q : Place, p.Plain → q.Plain → p.describe = q.describe →
      p.base.name = q.base.name ∧ p.path = q.path) ∧
    (∀ (s : Session) (f : Finding) (p : Place), p.Plain → f.violation.Names p →
      (s.report f).findings = s.findings → s.RecordsFor f p) ∧
    (∀ program f options c s₀ s, build program f options = .ok c → c.initial = .ok s₀ →
      c.run = .ok s → ∀ e u, (e, u) ∈ f.skeleton.visits c s₀ → ∀ a v, c.Tries e u a v →
      a.place.Plain → ∃ vs, c.violations e.pos v a = .ok vs ∧ ∀ x ∈ vs,
        if x.code = "E_USE_UNINIT" ∨ x.code = "E_MUTABILITY" then
          x.subject? = some a.place.base.name ∧
            ∃ g ∈ s.findings, Finding.repeats ⟨e.pos, .unknown, x⟩ g = true
        else s.RecordsFor ⟨e.pos, .unknown, x⟩ a.place) ∧
    ∀ (c : Context) (s : Session) (l : Loan) (pos : Int) (span : Span) (viaReturn : Bool),
      l.place.Plain → (c.reportDangling l pos span viaReturn s).RecordsFor
        ⟨pos, span, .danglingBorrow l.info (c.tree.ownerStop l.place.base) viaReturn⟩ l.place := by
  refine ⟨fun p q => Place.describe_inj, fun s f p hp hf hdropped => ?_, ?_,
    fun c s l pos span viaReturn hp => Session.recordsFor_report hp (by rfl) _⟩
  · exact (Session.recordsFor_report hp hf s).mono (hdropped ▸ prefix_rfl)
  · intro program f options c s₀ s hbuild h₀ hrun e u hu a v htries hp
    have hc := (build_fields hbuild).1
    obtain ⟨-, span, k, hk, hkept⟩ := exists_access_of_tries hbuild h₀ hrun hu htries
    refine ⟨_, violations_eq hc hk, fun x hx => ?_⟩
    have hcites := cites_of_meets x hx
    obtain ⟨g, hg, hrepeats⟩ := Session.exists_repeats_reportAll span .unknown hx v
    rw [← findings_access hc hk] at hg
    have hfound : ∃ g ∈ s.findings, Finding.repeats ⟨e.pos, .unknown, x⟩ g = true :=
      ⟨g, hkept.subset hg, hrepeats⟩
    unfold Violation.Cites at hcites
    split
    · rename_i hcode
      rw [if_pos hcode] at hcites
      exact ⟨hcites, hfound⟩
    · rename_i hcode
      rw [if_neg hcode] at hcites
      exact Session.recordsFor_of_repeats hp hcites hfound

end Context

/-! ### Two places of one binding -/

/-- A program with a type of three texts. -/
def Program.triples : Program where
  types := (TypeTable.empty.run [.ensureString,
    .declareStruct "Triple" (some [⟨"a", ⟨1⟩⟩, ⟨"b", ⟨1⟩⟩, ⟨"c", ⟨1⟩⟩])]).2

def Expr.whole : Expr := .var "x" .unknown

def Expr.part (name : String) : Expr := .field .whole name .unknown

/-- Borrows two parts of an immutable binding exclusively. -/
def Stmt.refit : Stmt :=
  .evaluate (.construct "Pair" none [.borrow (.part "a") true { line := some 1 },
    .borrow (.part "b") true { line := some 2 }] .unknown) .unknown

/-- Takes a triple in a loop, refits it, and replaces it by another one whose last text is taken. In
the first round the triple is gone when it is to be refitted; in the second one it is not, because
taking it is refused. -/
def Function.refitting : Function where
  name := "refitting"
  params := [⟨"k", none, false, .unknown⟩, ⟨"x", some ⟨2⟩, false, .unknown⟩]
  body := .mk [.loop (.var "k" .unknown) (.mk [.evaluate .whole .unknown, .refit,
    .assign .whole (.construct "Triple" none [] .unknown) .unknown,
    .evaluate (.part "c") .unknown] .unknown) .unknown] .unknown

def Event.taking : Event := .step 5 (.stmt (.evaluate .whole .unknown))

def Event.refit : Event := .step 6 (.stmt .refit)

/-- What the field `a` of a binding `x` points to; `index` tells bindings of that name apart. -/
def Place.pointee (index : Nat) : Place := ⟨{ name := "x", index }, [.field "a", .deref]⟩

/-- The refusal of `(*x.a)`, the pointee of the field. -/
def Finding.missing : Finding := ⟨5, .unknown, .useAfterMove "x" "(*x.a)" "x.a" 3 .unknown⟩

/-- A replay in which a use of `*x.a`, the field of what `x` points to, has been refused as well. -/
def Session.missing : Session where
  replay := 1
  findings := [⟨5, .unknown, .useAfterMove "x" "*x.a" "x.a" 3 .unknown⟩, .missing]

namespace Context

/-- A visited event is known from its position. -/
lemma mem_visits_of_pos {program : Program} {f : Function} {options : Options} {c : Context}
    {s₀ s u : Session} {e e' : Event} (hbuild : build program f options = .ok c)
    (h₀ : c.initial = .ok s₀) (hrun : c.run = .ok s) (hu : (e', u) ∈ f.skeleton.visits c s₀)
    (he : e ∈ f.events) (hpos : e'.pos = e.pos) : (e, u) ∈ f.skeleton.visits c s₀ := by
  obtain ⟨hc, hr, rfl⟩ := build_fields hbuild
  obtain ⟨s₀', s₁, h₀', h₁, -⟩ := run_cases hrun
  obtain rfl := ok_inj h₀ h₀'
  have he' : e' ∈ c.function.events := by
    refine c.function.mem_events_of_skeleton (Skeleton.mem_events_of_visited _ ?_)
    rw [← Skeleton.map_fst_visits hc hr _ h₁ (initial_fields h₀).2.1]
    exact mem_map_of_mem hu
  obtain rfl := c.function.numbered_events.eq_of_pos he' he hpos
  exact hu

/-- In the second round of `refitting` the triple cannot be taken, which is found for the triple. A
finding about the pointee of a field is dropped only for its own sake, and a loan of it dangles as
such. -/
theorem reports_keep_places_apart_refitting : ∃ c s₀ s u p l,
    build .triples .refitting { checkMutability := true } = .ok c ∧ c.initial = .ok s₀ ∧
    c.run = .ok s ∧ (.taking, u) ∈ Function.refitting.skeleton.visits c s₀ ∧ u.replay = 1 ∧
    c.Tries .taking u (.move p) (u.begin .unknown) ∧ p.Plain ∧
    c.violations 5 (u.begin .unknown) (.move p) = .ok [.useAfterMove "x" "x" "x.c" 8 .unknown] ∧
    s.RecordsFor ⟨5, .unknown, .useAfterMove "x" "x" "x.c" 8 .unknown⟩ p ∧
    (Place.pointee 0).Plain ∧ (Place.pointee 1).Plain ∧
    (Place.pointee 0).describe = (Place.pointee 1).describe ∧
    (Place.pointee 0).path = (Place.pointee 1).path ∧
    (Session.missing.report .missing).findings = Session.missing.findings ∧
    Session.missing.RecordsFor .missing (.pointee 0) ∧ l.place = .pointee 0 ∧
    (c.reportDangling l 9 .unknown false s).RecordsFor
      ⟨9, .unknown, .danglingBorrow l.info (c.tree.ownerStop l.place.base) false⟩ (.pointee 0) := by
  have hok : ((build .triples .refitting { checkMutability := true } >>= fun c =>
      c.initial >>= fun s₀ => (c, s₀, ·) <$> c.run).toOption.any fun r =>
        (Expr.whole.place? (r.1.meaning 5)).any fun p =>
          decide ((r.1.demanded p .take).toOption = some (.move p) ∧ p.Plain) &&
          (Function.refitting.skeleton.visits r.1 r.2.1).any fun v =>
            decide (v.1.pos = 5 ∧ v.2.replay = 1 ∧
              (r.1.violations 5 (v.2.begin .unknown) (.move p)).toOption =
                some [.useAfterMove "x" "x" "x.c" 8 .unknown])) = true := by decide +kernel
  obtain ⟨c, s₀, s, hbuild, h₀, hrun, htest⟩ := exists_initial_run_of_test hok
  obtain ⟨p, hp, htest⟩ := (Option.any_eq_true _ _).mp htest
  obtain ⟨hfacts, htest⟩ := Bool.and_eq_true_iff.mp htest
  obtain ⟨htake, hplain⟩ := of_decide_eq_true hfacts
  obtain ⟨⟨e, u⟩, hu, htest⟩ := any_eq_true.mp htest
  obtain ⟨hpos, hreplay, hviolations⟩ := of_decide_eq_true htest
  have hu :=
    mem_visits_of_pos (e := .taking) hbuild h₀ hrun hu (mem_of_getElem? (i := 5) rfl) hpos
  have htries : c.Tries .taking u (.move p) (u.begin .unknown) := by
    refine ⟨rfl, ?_⟩
    have hplace : Expr.whole.place? (c.evalScope 5 .unknown).meaning = some p := hp
    change c.Asks 5 (Expr.whole.requests (c.evalScope 5 .unknown) true) _ _ _
    rw [Expr.requests_of_place? hplace]
    exact .inl ⟨Fault.eq_ok_of_toOption htake, rfl⟩
  obtain ⟨htexts, hdropped, hmet, hdangles⟩ := reports_keep_places_apart
  have hv := Fault.eq_ok_of_toOption hviolations
  obtain ⟨vs, hvs, hrecorded⟩ := hmet _ _ _ c s₀ s hbuild h₀ hrun .taking u hu _ _ htries hplain
  obtain rfl := ok_inj hv hvs
  have hplains : (Place.pointee 0).Plain ∧ (Place.pointee 1).Plain := by decide
  have hrepeated :
      (Session.missing.report .missing).findings = Session.missing.findings := by decide
  exact ⟨c, s₀, s, u, p, ⟨0, .pointee 0, .shared, 3, .unknown, 3, [], none⟩, hbuild, h₀, hrun, hu,
    hreplay, htries, hplain, hv, hrecorded _ mem_cons_self, hplains.1, hplains.2, rfl,
    (htexts _ _ hplains.1 hplains.2 rfl).2, hrepeated, hdropped _ _ _ hplains.1 rfl hrepeated, rfl,
    hdangles c s _ 9 .unknown false hplains.1⟩

/-- In the second round of `refitting` both borrows are borrows of something immutable, but only the
first one is reported. -/
theorem immutable_parts_conflated_refitting : ∃ c s₀ s u k p q,
    build .triples .refitting { checkMutability := true } = .ok c ∧ c.initial = .ok s₀ ∧
    c.run = .ok s ∧ (.refit, u) ∈ Function.refitting.skeleton.visits c s₀ ∧
    p.Plain ∧ q.Plain ∧ p.base = q.base ∧ p ≠ q ∧
    c.Tries .refit u (.lend p .exclusive) (u.begin .unknown) ∧
    c.violations 6 (u.begin .unknown) (.lend p .exclusive) = .ok [.mutability "x" "borrow"] ∧
    c.Tries .refit u (.lend q .exclusive) k ∧
    c.violations 6 k (.lend q .exclusive) = .ok [.mutability "x" "borrow"] ∧
    s.findings.filter (fun g => g.pos = 6 && g.violation.code = "E_MUTABILITY") =
      [⟨6, { line := some 1 }, .mutability "x" "borrow"⟩] := by
  have hok :
      ((build .triples .refitting { checkMutability := true } >>= fun c => c.initial >>= fun s₀ =>
      (c, s₀, ·) <$> c.run).toOption.any fun r =>
        ((Expr.part "a").place? (r.1.meaning 6)).any fun p =>
        ((Expr.part "b").place? (r.1.meaning 6)).any fun q =>
          decide (p.Plain ∧ q.Plain ∧ p.base = q.base ∧ p ≠ q ∧
            r.2.2.findings.filter (fun g => g.pos = 6 && g.violation.code = "E_MUTABILITY") =
              [⟨6, { line := some 1 }, .mutability "x" "borrow"⟩]) &&
          (Function.refitting.skeleton.visits r.1 r.2.1).any fun v => decide (v.1.pos = 6) &&
            (decide ((r.1.violations 6 (v.2.begin .unknown) (.lend p .exclusive)).toOption =
              some [.mutability "x" "borrow"]) &&
            (r.1.perform 6 (v.2.begin .unknown)
              (.place (.lend .exclusive) p { line := some 1 } true)).toOption.any fun k =>
                decide ((r.1.violations 6 k.2 (.lend q .exclusive)).toOption =
                  some [.mutability "x" "borrow"]))) = true := by decide +kernel
  obtain ⟨c, s₀, s, hbuild, h₀, hrun, htest⟩ := exists_initial_run_of_test hok
  obtain ⟨p, hp, htest⟩ := (Option.any_eq_true _ _).mp htest
  obtain ⟨q, hq, htest⟩ := (Option.any_eq_true _ _).mp htest
  obtain ⟨hfacts, htest⟩ := Bool.and_eq_true_iff.mp htest
  obtain ⟨hplain, hplain', hbase, hne, hfindings⟩ := of_decide_eq_true hfacts
  obtain ⟨⟨e, u⟩, hu, htest⟩ := any_eq_true.mp htest
  obtain ⟨hpos, htest⟩ := Bool.and_eq_true_iff.mp htest
  obtain ⟨hfirst, htest⟩ := Bool.and_eq_true_iff.mp htest
  obtain ⟨k, hk, hsecond⟩ := Fault.exists_ok htest
  have hrequests : (Expr.construct "Pair" none [.borrow (.part "a") true { line := some 1 },
      .borrow (.part "b") true { line := some 2 }] .unknown).requests
        (c.evalScope 6 .unknown) true =
      [.place (.lend .exclusive) p { line := some 1 } true,
        .place (.lend .exclusive) q { line := some 2 } true] := by
    have hp : (Expr.part "a").place? (c.evalScope 6 .unknown).meaning = some p := hp
    have hq : (Expr.part "b").place? (c.evalScope 6 .unknown).meaning = some q := hq
    simp only [Expr.requests, Expr.allRequests, hp, hq]
    rfl
  have htries :
      ∀ a v, c.Tries .refit u a v ↔ c.Asks 6 [.place (.lend .exclusive) p { line := some 1 } true,
        .place (.lend .exclusive) q { line := some 2 } true] (u.begin .unknown) a v := by
    intro a v
    rw [← hrequests]
    exact and_iff_right rfl
  exact ⟨c, s₀, s, u, k.2, p, q, hbuild, h₀, hrun,
    mem_visits_of_pos hbuild h₀ hrun hu (mem_of_getElem? (i := 6) rfl)
      (of_decide_eq_true hpos),
    hplain, hplain', hbase, hne, (htries _ _).mpr (.inl ⟨rfl, rfl⟩),
    Fault.eq_ok_of_toOption (of_decide_eq_true hfirst),
    (htries _ _).mpr (.inr ⟨k, hk, .inl ⟨rfl, rfl⟩⟩),
    Fault.eq_ok_of_toOption (of_decide_eq_true hsecond), hfindings⟩

end Context

end Ownership
