import Ownership.Checker.Session

/-!
# Coverage of selections

The arms of a selection are judged in the order of the text: an arm that names no variant of the
type is reported, as is one that comes after a wildcard or after an arm for the same variant. The
whole selection is reported when a variant is neither named nor covered by a wildcard.
-/

namespace Ownership

/-- An arm as coverage sees it; without a variant it is the wildcard. -/
structure ArmSite where
  variant : Option String
  pos : Int
  span : Span := .unknown
deriving DecidableEq, Inhabited

/-- A selection as coverage sees it. -/
structure MatchSite where
  pos : Int
  arms : List ArmSite
  span : Span := .unknown
deriving DecidableEq, Inhabited

/-- What the arms so far cover. -/
structure Coverage where
  /-- The first arm of each variant that is named. -/
  firstArm : Registry String Int := .empty
  /-- The first wildcard. -/
  wildcard : Option Int := none

namespace Coverage

/-- What is wrong with an arm after the arms so far. -/
def violation? (cov : Coverage) (d : TypeDef) (arm : ArmSite) : Option Violation :=
  match cov.wildcard, arm.variant with
  | some first, v => some (.unreachableArm v first true)
  | none, none => none
  | none, some v =>
    if v ∉ d.variantNames then some (.unknownVariant d.name v)
    else (cov.firstArm.get? v).map fun first => .unreachableArm (some v) first false

def extend (cov : Coverage) (d : TypeDef) (arm : ArmSite) : Coverage :=
  if (cov.violation? d arm).isSome then cov
  else
    match arm.variant with
    | none => { cov with wildcard := some arm.pos }
    | some v => { cov with firstArm := cov.firstArm.insert v arm.pos }

def judge (d : TypeDef) (cov : Coverage) : List ArmSite → List Finding × Coverage
  | [] => ([], cov)
  | arm :: rest =>
    let (findings, final) := judge d (cov.extend d arm) rest
    match cov.violation? d arm with
    | some violation => ({ pos := arm.pos, span := arm.span, violation } :: findings, final)
    | none => (findings, final)

/-- The variants that are neither named nor covered by a wildcard, in the order of declaration. -/
def missing (cov : Coverage) (d : TypeDef) : List String :=
  if cov.wildcard.isSome then []
  else d.variantNames.filter fun v => !cov.firstArm.contains v

end Coverage

namespace MatchSite

def check (site : MatchSite) (d : TypeDef) : List Finding :=
  if !d.isVariant then
    [{ pos := site.pos, span := site.span, violation := .nonVariantScrutinee d.name }]
  else
    let (findings, cov) := Coverage.judge d {} site.arms
    match cov.missing d with
    | [] => findings
    | missing =>
      findings ++
        [{ pos := site.pos, span := site.span, violation := .nonExhaustiveMatch d.name missing }]

/-- The arms of a selection from a position on; the header of an arm comes after its entry. -/
def armSites (p : Int) : List Arm → List ArmSite
  | [] => []
  | a :: rest =>
    { variant := a.variant, pos := p + 1, span := a.loc } :: armSites (p + a.width) rest

end MatchSite

namespace Context

/-- The findings of the selection that an event executes, if it does. -/
def checkSelection (c : Context) (e : Event) : Except Fault (List Finding) :=
  match e.kind, e.node with
  | .step, .stmt (.select scrutinee arms type loc) => do
    let site : MatchSite :=
      { pos := e.pos, arms := MatchSite.armSites (e.pos + 1) arms, span := loc }
    let ty ← c.typing.scrutineeType (c.tree.resolve e.label) scrutinee type
    if ty = .unknown then return []
    match ← c.typing.table.aggregate? .variant ty with
    | some d => return site.check d
    | none =>
      let typeName ← c.typing.table.describeTy ty
      return [{ pos := site.pos, span := site.span, violation := .nonVariantScrutinee typeName }]
  | _, _ => .ok []

def checkSelections (c : Context) : List Event → Except Fault (List Finding)
  | [] => .ok []
  | e :: rest => do
    let here ← c.checkSelection e
    let later ← c.checkSelections rest
    return here ++ later

end Context

end Ownership
