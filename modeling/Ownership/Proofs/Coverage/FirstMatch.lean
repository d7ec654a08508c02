import Mathlib.Data.List.Basic
import Ownership.Coverage

/-!
# Coverage is first match

A variant is caught by the first arm that names it or is a wildcard. The judgement of a selection
goes through the arms once and remembers the first wildcard and the first arm of each variant. Here
it is compared with who catches what: an arm is reported exactly if it catches nothing new, and the
selection exactly if some variant is caught by no arm.
-/

namespace Ownership

open List

/-! ### Who catches a variant -/

/-- Whether an arm takes a variant that gets to it. -/
def ArmSite.takes (arm : ArmSite) (v : String) : Bool := arm.variant = none || arm.variant = some v

namespace MatchSite

variable {arms before after : List ArmSite} {arm : ArmSite} {v : String} {i : Nat} {d : TypeDef}

/-- The number of the arm that catches a variant, the first one that takes it. -/
def catcher? (arms : List ArmSite) (v : String) : Option Nat := arms.findIdx? (·.takes v)

/-- The variants that no arm catches, in the order of declaration. -/
def uncaught (arms : List ArmSite) (d : TypeDef) : List String :=
  d.variantNames.filter fun v => catcher? arms v = none

def wildcard? (arms : List ArmSite) : Option ArmSite := arms.find? (·.variant = none)

def naming? (arms : List ArmSite) (v : String) : Option ArmSite := arms.find? (·.variant = some v)

/-- What first match says of the arm with a number, if `r` is what is wrong with it. -/
structure Judged (d : TypeDef) (arms : List ArmSite) (i : Nat) (arm : ArmSite)
    (r : Option Violation) : Prop where
  /-- An arm for a variant is reported if another one catches the variant: the first wildcard before
  it or else the first arm for the variant. -/
  declared : ∀ v ∈ d.variantNames, arm.variant = some v →
    (r = none ↔ catcher? arms v = some i) ∧
      (catcher? arms v ≠ some i → ∃ first, (wildcard? (arms.take i)).or (naming? arms v) =
        some first ∧
        r = some (.unreachableArm (some v) first.pos (wildcard? (arms.take i)).isSome))
  undeclared : ∀ v ∉ d.variantNames, arm.variant = some v →
    (wildcard? (arms.take i) = none → r = some (.unknownVariant d.name v)) ∧
      ∀ w, wildcard? (arms.take i) = some w → r = some (.unreachableArm (some v) w.pos true)
  wildcard : arm.variant = none →
    (wildcard? (arms.take i) = none → r = none) ∧
      ∀ w, wildcard? (arms.take i) = some w → r = some (.unreachableArm none w.pos true)

/-- Nothing takes a variant exactly if there is neither a wildcard nor an arm that names it. -/
lemma takes_eq_false_iff :
    (∀ a ∈ arms, a.takes v = false) ↔ wildcard? arms = none ∧ naming? arms v = none := by
  simp only [ArmSite.takes, wildcard?, naming?, find?_eq_none, Bool.or_eq_false_iff,
    decide_eq_false_iff_not, decide_eq_true_eq]
  exact ⟨fun h => ⟨fun a ha => (h a ha).1, fun a ha => (h a ha).2⟩,
    fun h a ha => ⟨h.1 a ha, h.2 a ha⟩⟩

lemma catcher?_eq_none_iff :
    catcher? arms v = none ↔ wildcard? arms = none ∧ naming? arms v = none := by
  rw [← takes_eq_false_iff, catcher?, findIdx?_eq_none_iff]

lemma catcher?_eq_length_iff (h : arm.variant = some v) :
    catcher? (before ++ arm :: after) v = some before.length ↔
      wildcard? before = none ∧ naming? before v = none := by
  have htakes : arm.takes v = true := by simp [ArmSite.takes, h]
  rw [← takes_eq_false_iff, ← findIdx?_eq_none_iff, catcher?, findIdx?_append,
    findIdx?_cons, if_pos htakes]
  cases hb : before.findIdx? (·.takes v) with
  | none => simp
  | some j =>
    have hlt : j < before.length := (findIdx?_eq_some_iff_findIdx_eq.mp hb).1
    simp only [Option.some_or, Option.some.injEq, reduceCtorEq, iff_false]
    omega

end MatchSite

/-! ### The run through the arms -/

namespace Coverage

open MatchSite

variable {d : TypeDef} {cov : Coverage} {before after arms : List ArmSite} {arm : ArmSite}

/-- What is known after some arms: the first wildcard and, as long as there is none, the first arm
of each variant. -/
structure After (d : TypeDef) (before : List ArmSite) (cov : Coverage) : Prop where
  wildcard : cov.wildcard = (wildcard? before).map (·.pos)
  firstArm : wildcard? before = none → ∀ v ∈ d.variantNames,
    cov.firstArm.get? v = (naming? before v).map (·.pos)

lemma After.nil : After d [] {} := ⟨rfl, fun _ _ _ => rfl⟩

variable (h : After d before cov)

include h

lemma After.extend_of_wildcard {w : ArmSite} (hw : wildcard? before = some w) :
    After d (before ++ [arm]) (cov.extend d arm) := by
  have hcov : cov.wildcard = some w.pos := by rw [h.wildcard, hw]; rfl
  have hext : cov.extend d arm = cov := by simp [extend, violation?, hcov]
  have happ : wildcard? (before ++ [arm]) = some w := by
    simp only [wildcard?] at hw
    simp [wildcard?, find?_append, hw]
  rw [hext]
  exact ⟨by rw [happ, hcov]; rfl, fun hnone => absurd (happ.symm.trans hnone) (by simp)⟩

/-- An arm with a name catches its variant, unless an earlier arm does. -/
lemma After.extend_of_some (hw : wildcard? before = none) {v : String} (hv : arm.variant = some v) :
    After d (before ++ [arm]) (cov.extend d arm) := by
  have hcov : cov.wildcard = none := by rw [h.wildcard, hw]; rfl
  have happ : wildcard? (before ++ [arm]) = none := by
    simp only [wildcard?] at hw
    simp [wildcard?, find?_append, hw, hv]
  have hname : ∀ w, naming? (before ++ [arm]) w =
      (naming? before w).or (if v = w then some arm else none) := by
    intro w
    by_cases hvw : v = w <;> simp [naming?, find?_append, hv, hvw]
  by_cases hmem : v ∈ d.variantNames
  · have hget := h.firstArm hw v hmem
    cases hfirst : naming? before v with
    | none =>
      rw [hfirst] at hget
      have hext : cov.extend d arm = { cov with firstArm := cov.firstArm.insert v arm.pos } := by
        simp [extend, violation?, hcov, hv, hmem, hget]
      rw [hext]
      refine ⟨by rw [happ]; exact hcov, fun _ w hwmem => ?_⟩
      rw [hname, Registry.get?_insert]
      by_cases hvw : w = v
      · subst hvw
        simp [hfirst]
      · rw [if_neg hvw, if_neg (Ne.symm hvw), Option.or_none]
        exact h.firstArm hw w hwmem
    | some first =>
      rw [hfirst] at hget
      have hext : cov.extend d arm = cov := by simp [extend, violation?, hcov, hv, hmem, hget]
      rw [hext]
      refine ⟨by rw [happ]; exact hcov, fun _ w hwmem => ?_⟩
      rw [hname]
      by_cases hvw : v = w
      · subst hvw
        rw [hfirst, Option.some_or]
        exact hget
      · rw [if_neg hvw, Option.or_none]
        exact h.firstArm hw w hwmem
  · have hext : cov.extend d arm = cov := by simp [extend, violation?, hcov, hv, hmem]
    rw [hext]
    refine ⟨by rw [happ]; exact hcov, fun _ w hwmem => ?_⟩
    have hvw : v ≠ w := fun he => hmem (he ▸ hwmem)
    rw [hname, if_neg hvw, Option.or_none]
    exact h.firstArm hw w hwmem

lemma After.extend : After d (before ++ [arm]) (cov.extend d arm) := by
  cases hw : wildcard? before with
  | some w => exact h.extend_of_wildcard hw
  | none =>
    cases hv : arm.variant with
    | some v => exact h.extend_of_some hw hv
    | none =>
      have hcov : cov.wildcard = none := by rw [h.wildcard, hw]; rfl
      have happ : wildcard? (before ++ [arm]) = some arm := by
        simp only [wildcard?] at hw
        simp [wildcard?, find?_append, hw, hv]
      have hext : cov.extend d arm = { cov with wildcard := some arm.pos } := by
        simp [Coverage.extend, violation?, hcov, hv]
      rw [hext]
      exact ⟨by rw [happ]; rfl, fun hnone => absurd (happ.symm.trans hnone) (by simp)⟩

/-- An arm is judged by what the arms before it catch. -/
lemma After.judged : Judged d (before ++ arm :: after) before.length arm
    (cov.violation? d arm) := by
  have htake : (before ++ arm :: after).take before.length = before := by simp
  refine ⟨fun v hmem hv => ?_, fun v hmem hv => ?_, fun hv => ?_⟩ <;> rw [htake]
  · rw [catcher?_eq_length_iff hv, ne_eq, catcher?_eq_length_iff hv]
    cases hw : wildcard? before with
    | some w => simp [violation?, h.wildcard, hw, hv]
    | none =>
      have hget := h.firstArm hw v hmem
      cases hfirst : naming? before v with
      | none => simp [violation?, h.wildcard, hw, hv, hmem, hget, hfirst]
      | some first =>
        have hwhole : naming? (before ++ arm :: after) v = some first := by
          simp only [naming?] at hfirst
          simp [naming?, find?_append, hfirst]
        simp [violation?, h.wildcard, hw, hv, hmem, hget, hfirst, hwhole]
  · constructor
    · intro hw
      simp [violation?, h.wildcard, hw, hv, hmem]
    · intro w hw
      simp [violation?, h.wildcard, hw, hv]
  · constructor
    · intro hw
      simp [violation?, h.wildcard, hw, hv]
    · intro w hw
      simp [violation?, h.wildcard, hw, hv]

def verdicts (d : TypeDef) (cov : Coverage) : List ArmSite → List (Option Violation)
  | [] => []
  | arm :: rest => cov.violation? d arm :: verdicts d (cov.extend d arm) rest

/-- The findings of arms, each with its verdict; an arm has one finding or none. -/
def findings (arms : List ArmSite) (verdicts : List (Option Violation)) : List Finding :=
  (arms.zip verdicts).filterMap fun a => a.2.map fun r => ⟨a.1.pos, a.1.span, r⟩

omit h in
lemma length_verdicts (arms : List ArmSite) (cov : Coverage) :
    (verdicts d cov arms).length = arms.length := by
  induction arms generalizing cov with
  | nil => rfl
  | cons arm rest ih => simp [verdicts, ih]

omit h in
lemma judge_eq_findings (arms : List ArmSite) (cov : Coverage) :
    (judge d cov arms).1 = findings arms (verdicts d cov arms) := by
  induction arms generalizing cov with
  | nil => rfl
  | cons arm rest ih =>
    have hcons : findings (arm :: rest) (verdicts d cov (arm :: rest)) =
        ((cov.violation? d arm).map fun r => ⟨arm.pos, arm.span, r⟩).toList ++
          findings rest (verdicts d (cov.extend d arm) rest) := by
      simp only [findings, verdicts, zip_cons_cons, filterMap_cons]
      cases cov.violation? d arm <;> rfl
    rw [hcons, judge, ← ih]
    cases cov.violation? d arm <;> rfl

/-- The run from the arms before: what is known at its end, and what it says of each arm. -/
lemma After.judge (arms : List ArmSite) :
    After d (before ++ arms) (judge d cov arms).2 ∧
      ∀ i arm, arms[i]? = some arm → ∃ r, (verdicts d cov arms)[i]? = some r ∧
        Judged d (before ++ arms) (before.length + i) arm r := by
  induction arms generalizing before cov with
  | nil => simpa [Coverage.judge] using h
  | cons arm rest ih =>
    have hext : After d (before ++ [arm]) (cov.extend d arm) := h.extend
    obtain ⟨hlast, hrest⟩ := ih hext
    rw [append_assoc, singleton_append] at hlast hrest
    refine ⟨?_, fun i a ha => ?_⟩
    · rw [Coverage.judge]
      cases cov.violation? d arm <;> exact hlast
    · cases i with
      | zero =>
        obtain rfl : arm = a := by simpa using ha
        exact ⟨_, rfl, h.judged⟩
      | succ i =>
        obtain ⟨r, hr, hjudged⟩ := hrest i a (by simpa using ha)
        refine ⟨r, by simpa [verdicts] using hr, ?_⟩
        rw [length_append, length_singleton] at hjudged
        rwa [show before.length + (i + 1) = before.length + 1 + i by omega]

omit h

lemma After.missing_eq (h : After d arms cov) : cov.missing d = uncaught arms d := by
  unfold missing uncaught
  cases hw : wildcard? arms with
  | some w =>
    have hnone : ∀ v, catcher? arms v ≠ none := fun v hv => by
      rw [catcher?_eq_none_iff, hw] at hv
      cases hv.1
    simp [h.wildcard, hw, hnone]
  | none =>
    rw [h.wildcard, hw, if_neg (by simp)]
    refine filter_congr fun v hv => ?_
    rw [Registry.contains, h.firstArm hw v hv, Option.isSome_map]
    cases hname : naming? arms v <;> simp [catcher?_eq_none_iff, hw, hname]

end Coverage

namespace MatchSite

lemma check_eq_append (site : MatchSite) {d : TypeDef} (hd : d.isVariant = true) :
    site.check d = (Coverage.judge d {} site.arms).1 ++
      if (Coverage.judge d {} site.arms).2.missing d = [] then [] else
        [⟨site.pos, site.span,
          .nonExhaustiveMatch d.name ((Coverage.judge d {} site.arms).2.missing d)⟩] := by
  rw [check, if_neg (by simp [hd])]
  dsimp only
  split
  · rename_i hnil
    rw [if_pos hnil, append_nil]
  · rename_i hne
    rw [if_neg hne]

/-- The check of a selection over a variant is first match. Each arm has one verdict at most, which
is what first match says of it; the findings are these verdicts in the order of the arms and, last
and only if some variant is caught by no arm, the finding that lists these variants in the order of
their declaration. -/
theorem check_first_match (site : MatchSite) {d : TypeDef} (hd : d.isVariant = true) :
    ∃ verdicts : List (Option Violation), verdicts.length = site.arms.length ∧
      (∀ i arm, site.arms[i]? = some arm → ∃ r, verdicts[i]? = some r ∧
        Judged d site.arms i arm r) ∧
      ((∃ v ∈ d.variantNames, catcher? site.arms v = none) → site.check d =
        Coverage.findings site.arms verdicts ++
          [⟨site.pos, site.span, .nonExhaustiveMatch d.name (uncaught site.arms d)⟩]) ∧
      ((∀ v ∈ d.variantNames, catcher? site.arms v ≠ none) →
        site.check d = Coverage.findings site.arms verdicts) := by
  obtain ⟨hafter, hjudged⟩ := (Coverage.After.nil : Coverage.After d [] {}).judge site.arms
  simp only [nil_append, length_nil, Nat.zero_add] at hafter hjudged
  have hcheck := site.check_eq_append hd
  rw [hafter.missing_eq, Coverage.judge_eq_findings] at hcheck
  refine ⟨_, Coverage.length_verdicts site.arms {}, hjudged, fun hv => ?_, fun hall => ?_⟩
  · obtain ⟨v, hmem, hnone⟩ := hv
    have hun : v ∈ uncaught site.arms d := mem_filter.mpr ⟨hmem, by simp [hnone]⟩
    rw [hcheck, if_neg (ne_nil_of_mem hun)]
  · have hnil : uncaught site.arms d = [] := filter_eq_nil_iff.mpr (by simpa using hall)
    rw [hcheck, if_pos hnil, append_nil]

end MatchSite

def TypeDef.meal : TypeDef := ⟨"Meal", .variant [⟨"Soup", []⟩, ⟨"Fish", []⟩, ⟨"Cake", []⟩]⟩

/-- A selection with an arm that names no variant and one that repeats the first. -/
def MatchSite.dinner : MatchSite where
  pos := 1
  arms := [⟨some "Soup", 3, .unknown⟩, ⟨some "Pie", 5, .unknown⟩, ⟨some "Soup", 7, .unknown⟩]

namespace MatchSite

theorem check_first_match_dinner : TypeDef.meal.isVariant = true ∧
    catcher? dinner.arms "Soup" = some 0 ∧ uncaught dinner.arms .meal = ["Fish", "Cake"] ∧
    ∃ verdicts : List (Option Violation), verdicts.length = 3 ∧
      verdicts[0]? = some none ∧
      verdicts[1]? = some (some (.unknownVariant "Meal" "Pie")) ∧
      verdicts[2]? = some (some (.unreachableArm (some "Soup") 3 false)) ∧
      dinner.check .meal = Coverage.findings dinner.arms verdicts ++
        [⟨1, .unknown, .nonExhaustiveMatch "Meal" ["Fish", "Cake"]⟩] := by
  obtain ⟨verdicts, hlength, hjudged, hmissing, -⟩ :=
    check_first_match dinner (show TypeDef.meal.isVariant = true from rfl)
  have hcatch : catcher? dinner.arms "Soup" = some 0 := by decide
  obtain ⟨r₀, h₀, hr₀⟩ := hjudged 0 _ rfl
  obtain ⟨r₁, h₁, hr₁⟩ := hjudged 1 _ rfl
  obtain ⟨r₂, h₂, hr₂⟩ := hjudged 2 _ rfl
  refine ⟨rfl, hcatch, by decide, verdicts, hlength, ?_, ?_, ?_, hmissing ⟨"Fish",
    by decide, by decide⟩⟩
  · rw [h₀, (hr₀.declared "Soup" (by decide) rfl).1.mpr hcatch]
  · rw [h₁, (hr₁.undeclared "Pie" (by decide) rfl).1 (by decide)]
    rfl
  · obtain ⟨first, hfirst, hr⟩ := (hr₂.declared "Soup" (by decide) rfl).2 (by decide)
    obtain rfl : dinner.arms.head (by decide) = first := Option.some.inj hfirst
    rw [h₂, hr]
    rfl

end MatchSite

end Ownership
