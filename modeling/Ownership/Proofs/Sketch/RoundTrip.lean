import Mathlib.Algebra.Group.Nat.Defs
import Ownership.Proofs.Sketch.Printable
import Ownership.Proofs.Sketch.Programs

/-!
# Printing and reading back

A function that is printed after the declarations of its types is read back as the same function,
up to its spans and the identifiers of its types. It must have no integer of more than
`Numeral.maxDigits` digits, since such a numeral is refused.
-/

namespace Ownership.Sketch

variable {n : Nat} {write : TypeId → TypeExpr}

/-- A function that a sketch can say after some declarations can be printed, and however it is
printed, it is read back as the same function. Its types are numbered anew, each number leads to the
type that was written, and types that are written differently are kept apart. -/
theorem parse_spaced {decls : List Item} {write : TypeId → TypeExpr} {f : Function}
    (hdecls : Declares decls) (hf : f.Expressible decls write) :
    (∃ ts, PrintsEach Item.Prints (decls ++ [.function (f.written write)]) ts) ∧
      ∀ ts, PrintsEach Item.Prints (decls ++ [.function (f.written write)]) ts →
        ∀ file, ∃ p f', parse (String.ofList (spaced ts)) file = .ok p ∧ p.functions = [f'] ∧
          f.Same (Renumbers write p.types) f' ∧ p.types.Registered ∧
          ∀ (e e' : TypeExpr) (id : TypeId), e.idIn p.types = some id → e'.idIn p.types = some id →
            e.bare = e'.bare := by
  refine ⟨exists_prints_program hdecls hf, fun ts hts file => ?_⟩
  obtain ⟨is, his, hbare⟩ := items_spaced hts (spelled_program hdecls hf hts) file
  obtain ⟨p, f', hbuild, hfunctions, hsame, htypes⟩ := exists_build hdecls hf hbare
  refine ⟨p, f', ?_, hfunctions, hsame, htypes, fun e e' id he he' => htypes.bare_eq he he'⟩
  rw [parse, String.toList_ofList, his]
  exact hbuild

/-! ### A function on lists -/

/-- Lists: a struct and a variant that refer to each other. -/
def listDecls : List Item :=
  [.struct "Node" [⟨"value", .named "Int" .unknown⟩, ⟨"next", .box (.named "List" .unknown)⟩]
      .unknown,
    .variant "List" [⟨"Cons", [⟨none, .named "Node" .unknown⟩]⟩, ⟨"End", []⟩] .unknown]

/-- How the types of a function on lists are written. -/
def listTypes (id : TypeId) : TypeExpr :=
  if id = ⟨7⟩ then .ref (.named "List" .unknown) true else .named "Int" .unknown

/-- A function that cuts a list off; one of its operands needs parentheses, and the last part of its
branch is a branch again. -/
def cut : Function where
  name := "cut"
  params := [⟨"list", some ⟨7⟩, false, .unknown⟩, ⟨"n", some ⟨1⟩, false, .unknown⟩]
  body := .mk [
    .declare "k" (some ⟨1⟩) (.var "n" .unknown) true .unknown,
    .branch
      (.binary .lt
        (.binary .sub (.var "n" .unknown)
          (.binary .sub (.literal (.int 1) .unknown) (.var "k" .unknown) .unknown) .unknown)
        (.literal (.int 30) .unknown) .unknown)
      (.mk [.assign (.deref (.var "list" .unknown) .unknown)
        (.construct "List" (some "End") [] .unknown) .unknown] .unknown)
      (some (.mk [.branch (.literal (.bool true) .unknown)
        (.mk [.ret .absent .unknown] .unknown) none .unknown] .unknown))
      .unknown,
    .select (.deref (.var "list" .unknown) .unknown)
      [.mk (some "Cons")
        (.mk [.evaluate (.field (.var "node" .unknown) "value" .unknown) .unknown] .unknown)
        ["node"] true .unknown,
        .mk none (.mk [] .unknown) [] false .unknown]
      none .unknown] .unknown
  returnType := none
  loc := .unknown

lemma declares_listDecls : Declares listDecls where
  names := by decide
  each := by
    simp [listDecls, Item.Expressible, TypeExpr.Expressible]
    decide

lemma expressible_cut : cut.Expressible listDecls listTypes where
  name := by decide
  params := by
    simp [cut, listTypes, TypeExpr.Expressible]
    decide
  returnType := by simp [cut]
  body := by
    simp [cut, listTypes, Block.Expressible, Block.ExpressibleOpt, Stmt.Expressible,
      Stmt.ExpressibleAll, Arm.ExpressibleAll, Arm.Sayable, Expr.Expressible, Expr.ExpressibleAll,
      Expr.isPresent, Expr.IsTarget, TypeExpr.Expressible]
    decide

/-- One of the ways to print the declarations and the function. -/
def cutText : String :=
  "struct Node \x7b value : Int , next : Box < List > \x7d " ++
  "type List = Cons ( Node ) | End ; " ++
  "fn cut ( list : & mut List , n : Int ) \x7b " ++
  "let mut k : Int = n ; " ++
  "if n - ( 1 - k ) < 30 \x7b * list = List :: End ; \x7d else if true \x7b return ; \x7d " ++
  "match * list \x7b ref Cons ( node ) => \x7b node . value ; \x7d _ => \x7b \x7d \x7d \x7d"

lemma exists_prints_cut :
    ∃ ts, PrintsEach Item.Prints (listDecls ++ [.function (cut.written listTypes)]) ts ∧
      String.ofList (spaced ts) = cutText := by
  have helse : Block.PrintsElse (some _) _ :=
    .branch .unknown (.branch (.truth true .unknown) .unknown
      (.mk .unknown (.cons (.retNothing .unknown) .nil)) .none)
  have hcons : Arm.Prints _ _ :=
    .variant "Cons" ["node"] true .unknown (.mk .unknown
      (.cons (.evaluate (.field (.var "node" .unknown) "value" .unknown) .unknown) .nil))
  have harms : PrintsEach Arm.Prints _ _ :=
    .cons hcons (.cons (.wildcard .unknown (.mk .unknown .nil)) .nil)
  refine ⟨_, .cons (.struct ..) (.cons (.variant ..) (.cons (.function (.mk _ (.cons (.declare ..)
    (.cons (.branch _ _ (.mk _ (.cons (.assign ..) .nil)) helse)
      (.cons (.select _ _ harms) .nil))))) .nil)), ?_⟩
  decide +kernel

theorem parse_spaced_cut :
    Declares listDecls ∧ cut.Expressible listDecls listTypes ∧
      ∃ p f', parse cutText none = .ok p ∧ p.functions = [f'] ∧
        cut.Same (Renumbers listTypes p.types) f' := by
  refine ⟨declares_listDecls, expressible_cut, ?_⟩
  obtain ⟨ts, hts, htext⟩ := exists_prints_cut
  obtain ⟨p, f', hp, hf', hsame, -⟩ :=
    (parse_spaced declares_listDecls expressible_cut).2 ts hts none
  rw [htext] at hp
  exact ⟨p, f', hp, hf', hsame⟩

/-! ### Numbers that are too long -/

/-- The function `main` that just evaluates a number. -/
def evaluating (n : Nat) : Function where
  name := "main"
  params := []
  body := .mk [.evaluate (.literal (.int n) .unknown) .unknown] .unknown
  returnType := none
  loc := .unknown

/-- A function that evaluates a numeral with too many digits is refused, whatever its spans are. -/
lemma build_evaluating {is : List Item} (hn : Numeral.maxDigits < (Nat.toDigits 10 n).length)
    (h : is.map Item.bare = [Item.function ((evaluating n).written write)].map Item.bare) :
    build is = .error (.tooLong ⟨(Nat.toDigits 10 n).length⟩) := by
  obtain ⟨i, more, rfl, hi, hmore⟩ := List.map_eq_cons_iff.1 h
  obtain rfl := List.map_eq_nil_iff.1 hmore
  have hdecimal : Numeral.decimal (Nat.toDigits 10 n) = .error ⟨(Nat.toDigits 10 n).length⟩ :=
    Numeral.decimal_eq_error_iff.2 ⟨hn, rfl⟩
  cases i with
  | function decl =>
    obtain ⟨name, params, type, ⟨ss, loc⟩, loc'⟩ := decl
    simp only [Item.bare, FunctionDecl.bare, Function.written, evaluating, Block.bare,
      Ownership.Block.written, Ownership.Stmt.writtenAll, Ownership.Stmt.written,
      Ownership.Expr.written, Stmt.bareAll_eq_map, Item.function.injEq, FunctionDecl.mk.injEq,
      Block.mk.injEq, List.map_nil, List.map_eq_nil_iff, Option.map_none, Option.map_eq_none_iff,
      Int.toNat_natCast, Stmt.bare, Expr.bare, List.map_cons] at hi
    obtain ⟨rfl, rfl, rfl, ⟨hss, -⟩, -⟩ := hi
    obtain ⟨s, rest, rfl, hs, hrest⟩ := List.map_eq_cons_iff.1 hss
    obtain rfl := List.map_eq_nil_iff.1 hrest
    cases s with
    | evaluate e loc =>
      obtain ⟨he, -⟩ := Stmt.evaluate.inj hs
      cases e with
      | numeral digits loc =>
        obtain ⟨rfl, -⟩ := Expr.numeral.inj he
        simp [build, buildItems, StateT.run, bind, StateT.bind, Except.bind,
          TypeTable.builtins_empty, pure, Except.pure, Item.declare, Item.build,
          FunctionDecl.build, TypeExpr.buildOpt, Block.build, Stmt.buildAll, Stmt.build, buildExpr,
          Build.ask, resolve, hdecimal, Except.mapError, Except.map]
        rfl
      | _ => simp [Expr.bare] at he
    | _ => simp [Stmt.bare] at hs
  | _ => simp [Item.bare] at hi

lemma spelled_evaluating {ts : List TokenKind}
    (h : PrintsEach Item.Prints [Item.function ((evaluating n).written write)] ts) :
    Spelled ts := by
  refine h.spelled fun i hi us hus => ?_
  obtain rfl := List.mem_singleton.1 hi
  cases hus with
  | @function _ vs hvs =>
    have hbody : Spelled vs := by
      simp only [Function.written, evaluating, Ownership.Block.written, Ownership.Stmt.writtenAll,
        Ownership.Stmt.written] at hvs
      cases hvs with
      | mk _ hstmts =>
        cases hstmts with
        | cons hstmt hnil =>
          cases hnil
          cases hstmt
          simpa [Ownership.Expr.written, Expr.tokens] using lexical_digits n
    have hname : IsName "main" := by decide
    simp [Function.written, evaluating, commas, List.intercalate, optional, hname, hbody]

/-- Integers of any size cannot be said: a numeral with one digit more than the most is printed, but
it is not read. -/
theorem parse_spaced_long_numeral :
    (∃ ts, PrintsEach Item.Prints [.function ((evaluating (10 ^ Numeral.maxDigits)).written
        fun _ => .named "Int" .unknown)] ts) ∧
      ∀ ts, PrintsEach Item.Prints [.function ((evaluating (10 ^ Numeral.maxDigits)).written
          fun _ => .named "Int" .unknown)] ts →
        parse (String.ofList (spaced ts)) none = .error (.tooLong ⟨Numeral.maxDigits + 1⟩) := by
  have hlength : (Nat.toDigits 10 (10 ^ Numeral.maxDigits)).length = Numeral.maxDigits + 1 := by
    have hle := Nat.length_toDigits_le_iff (b := 10) (n := 10 ^ Numeral.maxDigits)
      (k := Numeral.maxDigits + 1) (by decide) (by omega)
    have hlt := Nat.length_toDigits_le_iff (b := 10) (n := 10 ^ Numeral.maxDigits)
      (k := Numeral.maxDigits) (by decide) (by decide)
    have hpow : 10 ^ Numeral.maxDigits < 10 ^ (Numeral.maxDigits + 1) :=
      Nat.pow_lt_pow_succ (by decide)
    have := hle.2 hpow
    have := mt hlt.1 (Nat.lt_irrefl _)
    omega
  refine ⟨⟨_, .cons (.function (.mk _ (.cons (.evaluate _ _) .nil))) .nil⟩, fun ts hts => ?_⟩
  obtain ⟨is, his, hbare⟩ := items_spaced hts (spelled_evaluating hts) none
  rw [parse, String.toList_ofList, his, ← hlength]
  exact build_evaluating (by omega) hbare

end Ownership.Sketch
