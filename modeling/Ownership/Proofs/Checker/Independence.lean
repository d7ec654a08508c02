import Ownership.Proofs.Checker.Inquiry
import Ownership.Proofs.Checker.Progress
import Ownership.Proofs.Moves.Soundness

/-!
# Analyses do not influence each other

The functions of a program are analysed one after another on one type table. What an analysis says
about a function depends neither on what was analysed on the table before nor on the order in which
the program lists its functions, as long as their names are distinct.
-/

namespace Ownership

namespace Program

/-! ### Analyses on a given table -/

/-- The result of the analysis of a function. -/
def outcome (f : Function) : Except Fault Report → Except Failure Report
  | .ok report => .ok report
  | .error fault => .error (.within f fault)

/-- Analyses one function on a table, and says what the table has become. -/
def analyzeFunctionOn (p : Program) (f : Function) (options : Options) (t : TypeTable) :
    Except Failure Report × TypeTable :=
  let inquiry : Inquiry Report := do
    let c ← Context.build { p with types := t } f options
    Inquiry.report c
  ((outcome f (inquiry t).1), (inquiry t).2)

/-- Analyses functions one after another on a table, up to the first failure. -/
def analyzeAllOn (p : Program) (options : Options) :
    List Function → TypeTable → Except Failure (List (String × List Finding)) × TypeTable
  | [], t => (.ok [], t)
  | f :: rest, t =>
    match p.analyzeFunctionOn f options t with
    | (.error failure, t) => (.error failure, t)
    | (.ok report, t) =>
      match p.analyzeAllOn options rest t with
      | (.error failure, t) => (.error failure, t)
      | (.ok reports, t) => (.ok ((report.function, report.findings) :: reports), t)

/-- Analyses all functions of a program on a table. -/
def analyzeOn (p : Program) (options : Options) (t : TypeTable) :
    Except Failure (List (String × List Finding)) × TypeTable :=
  match repeatedName? [] (p.functions.map (·.name)) with
  | some name => (.error { fault := .duplicateFunction name }, t)
  | none => p.analyzeAllOn options p.functions t

end Program

/-- What a table has become after analyses of functions, of whatever programs. -/
def TypeTable.afterAnalyses (t : TypeTable) (analyses : List (Program × Function × Options)) :
    TypeTable :=
  analyses.foldl (fun t (p, f, options) => (p.analyzeFunctionOn f options t).2) t

namespace TypeTable

variable {t t₀ : TypeTable}

lemma Shares.refl (h : t.Faithful) : t.Shares t := ⟨.refl t, h⟩

lemma Shares.trans {t' : TypeTable} (h : t₀.Shares t) (h' : t.Shares t') : t₀.Shares t' :=
  ⟨h.alike.trans h'.alike, h'.faithful⟩

end TypeTable

namespace Program

variable {p q : Program} {t : TypeTable} {f : Function} {options : Options}

lemma mirrors_analysis (h : p.Alike q) (hp : p.types.Faithful) (f : Function) (options : Options) :
    Inquiry.Mirrors p.types (do Inquiry.report (← Context.build q f options))
      (Context.build p f options >>= Context.report) := by
  rw [Context.build_under h]
  cases hc : Context.build p f options with
  | error fault => exact .lift _
  | ok c =>
    obtain ⟨hprogram, htyping⟩ := Context.programs_of_build hc
    have halike : c.Alike q := ⟨hprogram.symm ▸ h, htyping.symm ▸ h⟩
    have htable : c.typing.table = p.types := congrArg Program.types htyping
    have hreport := Inquiry.mirrors_report halike (htable.symm ▸ hp)
    rw [htable] at hreport
    exact hreport

/-- An analysis on a table that shares the definitions gives what the analysis of the program
gives. -/
lemma analyzeFunctionOn_eq (h : p.Alike { q with types := t }) (hp : p.types.Faithful)
    (ht : t.Faithful) (f : Function) (options : Options) :
    (q.analyzeFunctionOn f options t).1 = p.analyzeFunction f options ∧
      p.types.Shares (q.analyzeFunctionOn f options t).2 := by
  have hwarm : p.warm.Alike { q with types := t } :=
    (Alike.of_types (.warm p.types)).symm.trans h
  have hmirrors := mirrors_analysis hwarm hp.warm f options t ⟨hwarm.types, ht⟩
  constructor
  · rw [analyzeFunctionOn, hmirrors.1, analyzeFunction_eq]
    rfl
  · exact ⟨(TypeTable.Alike.warm p.types).trans hmirrors.2.alike, hmirrors.2.faithful⟩

/-- Analyses in turn on one table say what each says by itself. -/
lemma analyzeAllOn_eq (h : p.Alike { q with types := t }) (hp : p.types.Faithful)
    (ht : t.Faithful) (options : Options) (fs : List Function) :
    (q.analyzeAllOn options fs t).1 = p.analyzeAll options fs ∧
      p.types.Shares (q.analyzeAllOn options fs t).2 := by
  induction fs generalizing t with
  | nil => exact ⟨rfl, h.types, ht⟩
  | cons f rest ih =>
    obtain ⟨hone, hleft⟩ := analyzeFunctionOn_eq h hp ht f options
    rw [analyzeAllOn, analyzeAll, ← hone]
    cases hr : q.analyzeFunctionOn f options t with
    | mk r t' =>
      rw [hr] at hleft
      cases r with
      | error failure => exact ⟨rfl, hleft⟩
      | ok report =>
        have halike : p.Alike { q with types := t' } :=
          h.trans (.of_types (h.types.symm.trans hleft.alike))
        obtain ⟨hrest, hleft'⟩ := ih halike hleft.faithful
        cases hrs : q.analyzeAllOn options rest t' with
        | mk rs t'' =>
          rw [hrs] at hrest hleft'
          simp only [hrs, ← hrest]
          cases rs with
          | error failure => exact ⟨rfl, hleft'⟩
          | ok reports => exact ⟨rfl, hleft'⟩

lemma analyzeFunction_congr (h : p.Alike q) (hp : p.types.Faithful) (hq : q.types.Faithful)
    (f : Function) (options : Options) :
    q.analyzeFunction f options = p.analyzeFunction f options := by
  have hqq := (analyzeFunctionOn_eq (p := q) (q := q) (.of_types (.refl _)) hq hq f options).1
  have hpq := (analyzeFunctionOn_eq (q := q) h hp hq f options).1
  rw [← hqq, hpq]

lemma analyzeAll_congr (h : p.Alike q) (hp : p.types.Faithful) (hq : q.types.Faithful)
    (options : Options) (fs : List Function) :
    q.analyzeAll options fs = p.analyzeAll options fs := by
  induction fs with
  | nil => rfl
  | cons f rest ih => rw [analyzeAll, analyzeAll, ih, analyzeFunction_congr h hp hq]

/-! ### Functions in another order -/

lemma function?_eq_some_iff (h : (p.functions.map (·.name)).Nodup) {name : String} :
    p.function? name = some f ↔ f ∈ p.functions ∧ f.name = name := by
  rw [function?]
  constructor
  · intro hf
    exact ⟨List.mem_of_find?_eq_some hf, by simpa using List.find?_some hf⟩
  · rintro ⟨hf, rfl⟩
    cases hg : p.functions.find? (·.name = f.name) with
    | none => exact absurd (List.find?_eq_none.mp hg f hf) (by simp)
    | some g =>
      have hname : g.name = f.name := by simpa using List.find?_some hg
      rw [List.inj_on_of_nodup_map h (List.mem_of_find?_eq_some hg) hf hname]

lemma Alike.of_perm {functions : List Function} (hnames : (p.functions.map (·.name)).Nodup)
    (hperm : functions.Perm p.functions) : p.Alike { p with functions } := by
  refine .of_function? (.refl _) rfl ?_
  funext name
  have hnames' : (functions.map (·.name)).Nodup := (hperm.map _).nodup_iff.mpr hnames
  ext f
  rw [function?_eq_some_iff hnames, function?_eq_some_iff hnames', hperm.mem_iff]

lemma repeatedName?_eq_none_iff {seen names : List String} :
    repeatedName? seen names = none ↔ names.Nodup ∧ ∀ name ∈ names, name ∉ seen := by
  induction names generalizing seen with
  | nil => simp [repeatedName?]
  | cons name rest ih =>
    rw [repeatedName?]
    by_cases hseen : name ∈ seen
    · simp [hseen]
    · rw [if_neg hseen, ih, List.nodup_cons]
      grind

lemma analyze_eq (hnames : (p.functions.map (·.name)).Nodup) (options : Options) :
    p.analyze options = p.analyzeAll options p.functions := by
  have hnone : repeatedName? [] (p.functions.map (·.name)) = none :=
    repeatedName?_eq_none_iff.mpr ⟨hnames, by simp⟩
  rw [analyze, hnone]

lemma analyzeOn_eq (hnames : (p.functions.map (·.name)).Nodup) (options : Options) (t : TypeTable) :
    p.analyzeOn options t = p.analyzeAllOn options p.functions t := by
  have hnone : repeatedName? [] (p.functions.map (·.name)) = none :=
    repeatedName?_eq_none_iff.mpr ⟨hnames, by simp⟩
  rw [analyzeOn, hnone]

/-- What the analysis of a function adds to that of the program; nothing is found where it fails. -/
def entry (p : Program) (options : Options) (f : Function) : String × List Finding :=
  (f.name, ((p.analyzeFunction f options).toOption.map Report.findings).getD [])

lemma function_of_analyzeFunction {report : Report} (h : p.analyzeFunction f options = .ok report) :
    report.function = f.name := by
  obtain ⟨c, hc, hreport⟩ := analyzeFunction_eq_ok.mp h
  obtain ⟨k, -, hreport⟩ := bind_eq_ok.mp hreport
  rw [← Except.ok.inj hreport, ← (Context.build_fields hc).2.2]

/-- A program is reported on exactly if each of its functions is. -/
lemma analyzeAll_eq_ok_iff {fs : List Function} {reports : List (String × List Finding)} :
    p.analyzeAll options fs = .ok reports ↔
      (∀ f ∈ fs, ∃ report, p.analyzeFunction f options = .ok report) ∧
        reports = fs.map (p.entry options) := by
  induction fs generalizing reports with
  | nil => simp [analyzeAll, eq_comm]
  | cons f rest ih =>
    rw [analyzeAll, List.forall_mem_cons, List.map_cons, entry]
    cases hf : p.analyzeFunction f options with
    | error failure => simp [bind, Except.bind]
    | ok report =>
      have hname := function_of_analyzeFunction hf
      cases hrest : p.analyzeAll options rest with
      | error failure =>
        have hnone : ¬∀ f ∈ rest, ∃ report, p.analyzeFunction f options = .ok report := by
          intro hall
          cases hrest.symm.trans (ih.mpr ⟨hall, rfl⟩)
        simp [bind, Except.bind, hnone]
      | ok reports' =>
        obtain ⟨hall, rfl⟩ := ih.mp hrest
        rw [and_iff_right ⟨⟨report, rfl⟩, hall⟩]
        simp only [bind, Except.bind, pure, Except.pure, Except.ok.injEq, hname]
        exact eq_comm

lemma shares_afterAnalyses (h : t.Faithful) (analyses : List (Program × Function × Options)) :
    t.Shares (t.afterAnalyses analyses) := by
  induction analyses generalizing t with
  | nil => exact .refl h
  | cons a rest ih =>
    obtain ⟨r, f, options⟩ := a
    have hleft : t.Shares (r.analyzeFunctionOn f options t).2 :=
      (analyzeFunctionOn_eq (p := { r with types := t }) (.of_types (.refl t)) h h f options).2
    exact hleft.trans (ih hleft.faithful)

/-- The functions of a program with distinct names are analysed independently of each other, on a
table that is made by operations. Let the program list its functions in another order, and let
functions, of this program or of others, have been analysed on the same table before. (1) The
analysis of a function gives the report, or the failure, that it gives in the program as it is with
nothing remembered, whether or not the table is used on the way. (2) If no analysis of the program
fails, none does in the other order, and the findings are the same in the other order. (3) After
all that, a second analysis of the program on the table it has left gives the same as the first. -/
theorem analyses_independent {steps : List TypeTable.Step} {functions : List Function}
    (htypes : p.types = (TypeTable.empty.run steps).2) (hnames : (p.functions.map (·.name)).Nodup)
    (hperm : functions.Perm p.functions) (earlier : List (Program × Function × Options)) :
    let original := { p with types := p.types.cold }
    let table := p.types.afterAnalyses earlier
    let reordered := { p with functions, types := table }
    (∀ f options, reordered.analyzeFunction f options = original.analyzeFunction f options ∧
      (reordered.analyzeFunctionOn f options table).1 = original.analyzeFunction f options) ∧
    (∀ options reports, original.analyze options = .ok reports → ∃ reports',
      reordered.analyze options = .ok reports' ∧ (reordered.analyzeOn options table).1 =
        .ok reports' ∧
      reports'.Perm reports ∧ reports'.map (·.1) = functions.map (·.name)) ∧
    ∀ options options', (reordered.analyzeOn options' (reordered.analyzeOn options table).2).1 =
      (reordered.analyzeOn options' table).1 := by
  intro original table reordered
  have hp : p.types.Faithful :=
    htypes ▸ TypeTable.Faithful.run (t := TypeTable.empty) (.empty _) steps
  have hcold : original.types.Faithful := .empty _
  have hshares : p.types.Shares table := shares_afterAnalyses hp earlier
  have halike : original.Alike reordered := by
    have hsame : original.types.Alike p.types := ⟨rfl, rfl⟩
    exact ((Alike.of_types hsame).trans (.of_perm hnames hperm)).trans (.of_types hshares.alike)
  have hnames' : (functions.map (·.name)).Nodup := (hperm.map _).nodup_iff.mpr hnames
  have hon : ∀ options fs {t : TypeTable}, p.types.Shares t →
      (reordered.analyzeAllOn options fs t).1 = original.analyzeAll options fs ∧
        p.types.Shares (reordered.analyzeAllOn options fs t).2 := by
    intro options fs t ht
    have halike' : original.Alike { reordered with types := t } :=
      halike.trans (.of_types (hshares.alike.symm.trans ht.alike))
    obtain ⟨heq, hleft⟩ := analyzeAllOn_eq halike' hcold ht.faithful options fs
    exact ⟨heq, ⟨hleft.alike.defs, hleft.alike.names⟩, hleft.faithful⟩
  have hsplit : ∀ options t, reordered.analyzeOn options t =
      reordered.analyzeAllOn options functions t := analyzeOn_eq (p := reordered) hnames'
  refine ⟨fun f options => ⟨?_, ?_⟩, fun options reports hreports => ?_, fun options options' => ?_⟩
  · exact analyzeFunction_congr halike hcold hshares.faithful f options
  · exact (analyzeFunctionOn_eq halike hcold hshares.faithful f options).1
  · rw [analyze_eq (p := original) hnames] at hreports
    obtain ⟨hall, rfl⟩ := analyzeAll_eq_ok_iff.mp hreports
    have hok :
        original.analyzeAll options functions = .ok (functions.map (original.entry options)) :=
      analyzeAll_eq_ok_iff.mpr ⟨fun f hf => hall f (hperm.mem_iff.mp hf), rfl⟩
    refine ⟨_, ?_, ?_, hperm.map _, ?_⟩
    · rw [analyze_eq (p := reordered) hnames', analyzeAll_congr halike hcold hshares.faithful]
      exact hok
    · rw [hsplit, (hon options functions hshares).1]
      exact hok
    · rw [List.map_map]
      rfl
  · have hleft := (hon options functions hshares).2
    rw [hsplit, hsplit, hsplit, (hon options' _ hleft).1, (hon options' _ hshares).1]

end Program

/-! ### Two functions on one table -/

def Function.twice : Function where
  name := "twice"
  params := [⟨"text", some ⟨1⟩, false, .unknown⟩, ⟨"cell", some ⟨3⟩, false, .unknown⟩]
  body := .mk [.evaluate (.var "text" .unknown) .unknown, .evaluate (.var "text" .unknown) .unknown,
    .evaluate (.var "cell" .unknown) .unknown, .evaluate (.var "cell" .unknown) .unknown] .unknown

def Function.handOver : Function where
  name := "handOver"
  params := [⟨"text", some ⟨1⟩, false, .unknown⟩, ⟨"cell", some ⟨3⟩, false, .unknown⟩]
  body := .mk [.evaluate (.call "twice" [.var "text" .unknown, .var "cell" .unknown] .unknown)
    .unknown] .unknown

/-- A program with texts, numbers and cells of numbers. -/
def Program.cells : Program where
  types := (TypeTable.empty.run [.ensureString, .ensureInt,
    .declareStruct "Cell" (some [⟨"value", ⟨2⟩⟩])]).2
  functions := [.twice, .handOver]

namespace Program

/-- The second function comes first, and the table remembers an analysis of the first one. -/
theorem analyses_independent_cells :
    let table := cells.types.afterAnalyses [(cells, .twice, {})]
    let reordered := { cells with functions := [.handOver, .twice], types := table }
    table.copies.keys ≠ [] ∧ ∃ reports reports',
      { cells with types := cells.types.cold }.analyze {} = .ok reports ∧
      (reordered.analyzeOn {} table).1 = .ok reports' ∧ reports'.Perm reports ∧
      reports'.map (·.1) = ["handOver", "twice"] := by
  intro table reordered
  have hkeys : table.copies.keys ≠ [] := by decide +kernel
  have hok : ({ cells with types := cells.types.cold }.analyze {}).toOption.isSome = true := by
    decide +kernel
  have hnames : (cells.functions.map (·.name)).Nodup := by decide
  have htypes : cells.types = (TypeTable.empty.run _).2 := rfl
  have hperm : [Function.handOver, .twice].Perm cells.functions := .swap _ _ _
  obtain ⟨-, hanalyze, -⟩ := analyses_independent htypes hnames hperm [(cells, .twice, {})]
  cases hreports : { cells with types := cells.types.cold }.analyze {} with
  | error failure =>
    rw [hreports] at hok
    cases hok
  | ok reports =>
    obtain ⟨reports', -, hon, hsame, horder⟩ := hanalyze {} reports hreports
    exact ⟨hkeys, reports, reports', rfl, hon, hsame, horder⟩

end Program

end Ownership
