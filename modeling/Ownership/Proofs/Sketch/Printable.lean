import Ownership.Proofs.Sketch.Lexing

/-!
# What can be printed

Whatever a sketch can say can be printed, and every way to print it has only tokens with a spelling
of their own, so that they can be told apart in a text.
-/

namespace Ownership.Sketch

open List

variable {α : Type} {items : List Item} {write : TypeId → TypeExpr} {name : String} {i : Item}
  {ts : List TokenKind} {f : Function}

/-- Tokens that all have a spelling of their own. -/
def Spelled (ts : List TokenKind) : Prop := ∀ t ∈ ts, t.Lexical

section

variable {t : TokenKind} {ts us : List TokenKind} {parts : List (List TokenKind)}
  {P : α → List TokenKind → Prop} {xs : List α}

@[simp] lemma spelled_nil : Spelled [] := by simp [Spelled]

@[simp] lemma spelled_cons : Spelled (t :: ts) ↔ t.Lexical ∧ Spelled ts := forall_mem_cons

@[simp] lemma spelled_append : Spelled (ts ++ us) ↔ Spelled ts ∧ Spelled us :=
  forall_mem_append

@[simp] lemma lexical_keyword (k : Keyword) : (TokenKind.keyword k).Lexical := trivial

@[simp] lemma lexical_symbol (s : Symbol) : (TokenKind.symbol s).Lexical := trivial

@[simp] lemma lexical_name {word : String} : (TokenKind.name word).Lexical ↔ IsName word := .rfl

@[simp] lemma spelled_flag (k : Keyword) (stands : Bool) : Spelled (flag k stands) := by
  cases stands <;> simp [flag]

@[simp] lemma spelled_enclosed (needed level : Nat) :
    Spelled (enclosed needed level ts) ↔ Spelled ts := by
  unfold enclosed
  split <;> simp

lemma spelled_intercalate (s : Symbol) (h : ∀ ts ∈ parts, Spelled ts) :
    Spelled ([.symbol s].intercalate parts) := by
  induction parts with
  | nil => simp [intercalate]
  | cons first rest ih =>
    obtain ⟨hfirst, hrest⟩ := forall_mem_cons.1 h
    cases rest with
    | nil => simpa [intercalate] using hfirst
    | cons second rest =>
      have htail := ih hrest
      simp only [intercalate, intersperse_cons_cons, flatten_cons, spelled_append]
        at htail ⊢
      exact ⟨hfirst, by simp, htail⟩

lemma spelled_commas (h : ∀ ts ∈ parts, Spelled ts) :
    Spelled (commas parts) := spelled_intercalate .comma h

lemma spelled_optional (s : Symbol) {part : Option (List TokenKind)} (h : ∀ ts ∈ part, Spelled ts) :
    Spelled (optional s part) := by
  cases part with
  | none => simp [optional]
  | some ts => simpa [optional] using h

lemma PrintsEach.spelled (h : PrintsEach P xs ts) (hP : ∀ x ∈ xs, ∀ us, P x us → Spelled us) :
    Spelled ts := by
  induction h with
  | nil => simp
  | @cons x xs ts us hx _ ih =>
    exact spelled_append.2 ⟨hP x (by simp) ts hx, ih fun y hy => hP y (by simp [hy])⟩

lemma exists_printsEach (h : ∀ x ∈ xs, ∃ ts, P x ts) : ∃ ts, PrintsEach P xs ts := by
  induction xs with
  | nil => exact ⟨[], .nil⟩
  | cons x xs ih =>
    obtain ⟨ts, hts⟩ := h x (by simp)
    obtain ⟨us, hus⟩ := ih fun y hy => h y (by simp [hy])
    exact ⟨ts ++ us, .cons hts hus⟩

end

/-! ### Types and expressions -/

lemma Declares.isName (hitems : Declares items) (h : name ∈ typeNames items) : IsName name := by
  simp only [typeNames, mem_append] at h
  rcases h with (h | h) | h
  · have hbuiltin : ∀ word ∈ builtinNames, IsName word := by decide
    exact hbuiltin name h
  · obtain ⟨i, hi, hname⟩ := mem_filterMap.1 h
    have hexpressible := hitems.each i hi
    cases i with
    | struct name' fields loc =>
      cases hname
      exact hexpressible.1
    | _ => simp at hname
  · obtain ⟨i, hi, hname⟩ := mem_filterMap.1 h
    have hexpressible := hitems.each i hi
    cases i with
    | variant name' arms loc =>
      cases hname
      exact hexpressible.1
    | _ => simp at hname

lemma spelled_typeExpr (hitems : Declares items) {e : TypeExpr} (he : e.Expressible items) :
    Spelled e.tokens := by
  induction e with
  | named name loc => simpa [TypeExpr.tokens] using hitems.isName he
  | ref inner mutable ih => simpa [TypeExpr.tokens] using ih he
  | box inner ih => simpa [TypeExpr.tokens] using ih he

lemma lexical_digits (n : Nat) : (TokenKind.numeral (Nat.toDigits 10 n)).Lexical :=
  ⟨Nat.toDigits_ne_nil, fun _ hc => Nat.isDigit_of_mem_toDigits (by decide) (by decide) hc⟩

mutual

lemma spelled_expr (hitems : Declares items) (e : Ownership.Expr) (he : e.Expressible items) :
    Spelled e.written.tokens := by
  match e with
  | .literal (.int n) loc =>
    simpa [Ownership.Expr.written, Expr.tokens] using lexical_digits n.toNat
  | .literal (.bool b) loc => simp [Ownership.Expr.written, Expr.tokens]
  | .literal (.text value) loc =>
    have hvalue : (TokenKind.text value).Lexical := he
    simp [Ownership.Expr.written, Expr.tokens, hvalue]
  | .var name loc =>
    have hname : IsName name := he
    simp [Ownership.Expr.written, Expr.tokens, hname]
  | .field e name loc =>
    have hsubject := spelled_expr hitems e he.1
    simpa [Ownership.Expr.written, Expr.tokens, hsubject] using he.2
  | .deref e loc | .borrow e mutable loc =>
    simpa [Ownership.Expr.written, Expr.tokens] using spelled_expr hitems e he
  | .call callee args loc =>
    have hargs := spelled_commas (spelled_exprs hitems args he.2.2)
    simpa [Ownership.Expr.written, Expr.tokens, hargs] using he.1
  | .binary op l r loc =>
    have hleft := spelled_expr hitems l he.1
    have hright := spelled_expr hitems r he.2
    simp [Ownership.Expr.written, Expr.tokens, hleft, hright]
  | .construct typeName none args loc =>
    have hargs := spelled_commas (spelled_exprs hitems args he.2)
    have hname : typeName ∈ typeNames items := by simp [typeNames, he.1]
    simpa [Ownership.Expr.written, Expr.tokens, hargs] using hitems.isName hname
  | .construct typeName (some arm) args loc =>
    obtain ⟨hname, harm, hargs⟩ := he
    have hargs := spelled_commas (spelled_exprs hitems args hargs)
    cases args with
    | nil =>
      simp [Ownership.Expr.written, Ownership.Expr.writtenAll, Expr.tokens, harm,
        hitems.isName hname]
    | cons e es =>
      simp only [Ownership.Expr.writtenAll, Expr.tokensAll] at hargs
      simp [Ownership.Expr.written, Ownership.Expr.writtenAll, Expr.tokens, harm,
        hitems.isName hname, hargs]
  | .absent | .literal .other _ | .foreign _ => exact he.elim

lemma spelled_exprs (hitems : Declares items) (es : List Ownership.Expr)
    (hes : Ownership.Expr.ExpressibleAll items es) :
    ∀ ts ∈ Expr.tokensAll (Ownership.Expr.writtenAll es), Spelled ts := by
  match es with
  | [] => simp [Ownership.Expr.writtenAll, Expr.tokensAll]
  | e :: es =>
    have hfirst := spelled_expr hitems e hes.1
    simpa [Ownership.Expr.writtenAll, Expr.tokensAll, hfirst] using spelled_exprs hitems es hes.2

end

lemma spelled_exprOpt (hitems : Declares items) {e : Ownership.Expr}
    (he : e.isPresent → e.Expressible items) : ∀ e' ∈ e.writtenOpt, Spelled e'.tokens := by
  intro e' he'
  unfold Ownership.Expr.writtenOpt at he'
  split at he'
  · next hpresent =>
    cases he'
    exact spelled_expr hitems e (he hpresent)
  · simp at he'

/-! ### Statements -/

lemma spelled_pattern {binders : List String} {byRef : Bool}
    (h : Arm.Sayable (some name) binders byRef) : Spelled (patternTokens name binders byRef) := by
  obtain ⟨hname, hbinders⟩ := h
  have hbinder : ∀ word ∈ binders, (binderToken word).Lexical := by
    intro word hword
    unfold binderToken
    split
    · simp
    · next hne => exact (hbinders word hword).resolve_left hne
  cases binders with
  | nil => simpa [patternTokens] using hname
  | cons binder rest =>
    have hcommas : Spelled (commas ((binder :: rest).map fun word => [binderToken word])) :=
      spelled_commas (by simpa using hbinder)
    simp only [patternTokens, spelled_append, spelled_cons, spelled_flag, lexical_name, hname,
      lexical_symbol, hcommas, spelled_nil, and_self]

lemma Block.PrintsElse.exists_prints {b : Block} {us : List TokenKind}
    (h : Block.PrintsElse (some b) us) :
    ∃ ts vs, us = .keyword .otherwise :: ts ∧ b.Prints vs ∧ ts ⊆ vs := by
  cases h with
  | @block b ts hb => exact ⟨ts, ts, rfl, hb, List.Subset.refl ts⟩
  | @branch test thenPart elsePart loc ts outer hbranch =>
    refine ⟨ts, _, rfl, .mk outer (.cons hbranch .nil), fun t ht => ?_⟩
    simp [ht]

mutual

lemma spelled_stmt (hitems : Declares items) (s : Ownership.Stmt) (hs : s.Expressible items write)
    (ts : List TokenKind) (h : (s.written write).Prints ts) : Spelled ts := by
  match s with
  | .block b =>
    rw [Ownership.Stmt.written] at h
    cases h with
    | block hb => exact spelled_block hitems b hs ts hb
  | .declare name type value mutable loc =>
    rw [Ownership.Stmt.written] at h
    cases h
    obtain ⟨hname, htype, hvalue⟩ := hs
    have htype' : ∀ us ∈ (type.map write).map TypeExpr.tokens, Spelled us := by
      simpa using fun id hid => spelled_typeExpr hitems (htype id hid)
    have hvalue' : ∀ us ∈ value.writtenOpt.map Expr.tokens, Spelled us := by
      simpa using spelled_exprOpt hitems hvalue
    simp only [spelled_append, spelled_cons, lexical_keyword, spelled_flag, lexical_name, hname,
      spelled_optional _ htype', spelled_optional _ hvalue', lexical_symbol, spelled_nil, and_self]
  | .assign target value loc =>
    rw [Ownership.Stmt.written] at h
    cases h
    simp [spelled_expr hitems target hs.2.1, spelled_expr hitems value hs.2.2]
  | .evaluate value loc =>
    rw [Ownership.Stmt.written] at h
    cases h
    simp [spelled_expr hitems value hs]
  | .ret value loc =>
    have hvalue := spelled_exprOpt hitems hs
    rw [Ownership.Stmt.written] at h
    generalize value.writtenOpt = e at h hvalue
    cases h with
    | retNothing => simp
    | ret e => simp [hvalue e rfl]
  | .branch test thenPart elsePart loc =>
    rw [Ownership.Stmt.written] at h
    obtain ⟨htest, hthen, helse⟩ := hs
    cases h with
    | @branch _ _ ts us _ _ hts hus =>
      simp [spelled_expr hitems test htest, spelled_block hitems thenPart hthen ts hts,
        spelled_elsePart hitems elsePart helse us hus]
  | .loop test body loc =>
    rw [Ownership.Stmt.written] at h
    cases h with
    | @loop _ ts _ _ hts =>
      simp [spelled_expr hitems test hs.1, spelled_block hitems body hs.2 ts hts]
  | .select scrutinee arms type loc =>
    rw [Ownership.Stmt.written] at h
    cases h with
    | @select _ ts _ _ hts =>
      simp [spelled_expr hitems scrutinee hs.1, spelled_arms hitems arms hs.2.2 ts hts]
  | .foreign kind => exact hs.elim

lemma spelled_block (hitems : Declares items) (b : Ownership.Block) (hb : b.Expressible items write)
    (ts : List TokenKind) (h : (b.written write).Prints ts) : Spelled ts := by
  match b with
  | .mk ss loc =>
    rw [Ownership.Block.written] at h
    cases h with
    | @mk _ us _ hus => simp [spelled_stmts hitems ss hb us hus]

lemma spelled_elsePart (hitems : Declares items) (b : Option Ownership.Block)
    (hb : Ownership.Block.ExpressibleOpt items write b) (ts : List TokenKind)
    (h : Block.PrintsElse (Ownership.Block.writtenOpt write b) ts) : Spelled ts := by
  match b with
  | none =>
    rw [Ownership.Block.writtenOpt] at h
    cases h
    simp
  | some b =>
    rw [Ownership.Block.writtenOpt] at h
    obtain ⟨us, vs, rfl, hvs, hsubset⟩ := h.exists_prints
    have hspelled := spelled_block hitems b hb vs hvs
    exact spelled_cons.2 ⟨trivial, fun t ht => hspelled t (hsubset ht)⟩

lemma spelled_stmts (hitems : Declares items) (ss : List Ownership.Stmt)
    (hss : Ownership.Stmt.ExpressibleAll items write ss) (ts : List TokenKind)
    (h : PrintsEach Stmt.Prints (Ownership.Stmt.writtenAll write ss) ts) : Spelled ts := by
  match ss with
  | [] =>
    rw [Ownership.Stmt.writtenAll] at h
    cases h
    simp
  | s :: ss =>
    rw [Ownership.Stmt.writtenAll] at h
    cases h with
    | @cons _ _ ts us hts hus =>
      simp [spelled_stmt hitems s hss.1 ts hts, spelled_stmts hitems ss hss.2 us hus]

lemma spelled_arms (hitems : Declares items) (as : List Ownership.Arm)
    (has : Ownership.Arm.ExpressibleAll items write as) (ts : List TokenKind)
    (h : PrintsEach Arm.Prints (Ownership.Arm.writtenAll write as) ts) : Spelled ts := by
  match as with
  | [] =>
    rw [Ownership.Arm.writtenAll] at h
    cases h
    simp
  | .mk variant body binders byRef loc :: as =>
    rw [Ownership.Arm.writtenAll] at h
    obtain ⟨hsayable, hbody, has⟩ := has
    cases h with
    | @cons _ _ ts us hts hus =>
      have hrest := spelled_arms hitems as has us hus
      cases hts with
      | @wildcard _ vs _ hvs => simp [spelled_block hitems body hbody vs hvs, hrest]
      | @variant _ vs name _ _ _ hvs =>
        simp [spelled_pattern hsayable, spelled_block hitems body hbody vs hvs, hrest]

end

/-! ### Statements can be printed -/

mutual

/-- What can be expressed can be printed. -/
lemma exists_prints_stmt (s : Ownership.Stmt) (hs : s.Expressible items write) :
    ∃ ts, (s.written write).Prints ts := by
  match s with
  | .block b =>
    obtain ⟨ts, hts⟩ := exists_prints_block b hs
    exact ⟨ts, by rw [Ownership.Stmt.written]; exact .block hts⟩
  | .declare name type value mutable loc => exact ⟨_, .declare ..⟩
  | .assign target value loc => exact ⟨_, .assign ..⟩
  | .evaluate value loc => exact ⟨_, .evaluate ..⟩
  | .ret value loc =>
    rw [Ownership.Stmt.written]
    cases value.writtenOpt with
    | none => exact ⟨_, .retNothing _⟩
    | some e => exact ⟨_, .ret e _⟩
  | .branch test thenPart elsePart loc =>
    obtain ⟨ts, hts⟩ := exists_prints_block thenPart hs.2.1
    obtain ⟨us, hus⟩ := exists_prints_elsePart elsePart hs.2.2
    exact ⟨_, .branch _ _ hts hus⟩
  | .loop test body loc =>
    obtain ⟨ts, hts⟩ := exists_prints_block body hs.2
    exact ⟨_, .loop _ _ hts⟩
  | .select scrutinee arms type loc =>
    obtain ⟨ts, hts⟩ := exists_prints_arms arms hs.2.2
    exact ⟨_, .select _ _ hts⟩
  | .foreign kind => exact hs.elim

lemma exists_prints_block (b : Ownership.Block) (hb : b.Expressible items write) :
    ∃ ts, (b.written write).Prints ts := by
  match b with
  | .mk ss loc =>
    obtain ⟨ts, hts⟩ := exists_prints_stmts ss hb
    exact ⟨_, .mk _ hts⟩

lemma exists_prints_elsePart (b : Option Ownership.Block)
    (hb : Ownership.Block.ExpressibleOpt items write b) :
    ∃ ts, Block.PrintsElse (Ownership.Block.writtenOpt write b) ts := by
  match b with
  | none => exact ⟨_, .none⟩
  | some b =>
    obtain ⟨ts, hts⟩ := exists_prints_block b hb
    exact ⟨_, .block hts⟩

lemma exists_prints_stmts (ss : List Ownership.Stmt)
    (hss : Ownership.Stmt.ExpressibleAll items write ss) :
    ∃ ts, PrintsEach Stmt.Prints (Ownership.Stmt.writtenAll write ss) ts := by
  match ss with
  | [] => exact ⟨_, .nil⟩
  | s :: ss =>
    obtain ⟨ts, hts⟩ := exists_prints_stmt s hss.1
    obtain ⟨us, hus⟩ := exists_prints_stmts ss hss.2
    exact ⟨_, .cons hts hus⟩

lemma exists_prints_arms (as : List Ownership.Arm)
    (has : Ownership.Arm.ExpressibleAll items write as) :
    ∃ ts, PrintsEach Arm.Prints (Ownership.Arm.writtenAll write as) ts := by
  match as with
  | [] => exact ⟨_, .nil⟩
  | .mk variant body binders byRef loc :: as =>
    obtain ⟨hsayable, hbody, has⟩ := has
    obtain ⟨ts, hts⟩ := exists_prints_block body hbody
    obtain ⟨us, hus⟩ := exists_prints_arms as has
    cases variant with
    | none =>
      obtain ⟨rfl, rfl⟩ := hsayable
      exact ⟨_, .cons (.wildcard _ hts) hus⟩
    | some name => exact ⟨_, .cons (.variant name binders byRef _ hts) hus⟩

end

/-! ### Declarations -/

variable (hitems : Declares items)

include hitems

lemma spelled_armDecl {a : ArmDecl} (hname : IsName a.name)
    (hfields : ∀ f ∈ a.fields, (∀ word ∈ f.name, IsName word) ∧ f.type.Expressible items) :
    Spelled a.tokens := by
  have hfield : ∀ f ∈ a.fields, Spelled f.tokens := by
    rintro ⟨name, type⟩ hf
    obtain ⟨hword, htype⟩ := hfields _ hf
    cases name with
    | none => exact spelled_typeExpr hitems htype
    | some word => simpa [ArmField.tokens, spelled_typeExpr hitems htype] using hword
  obtain ⟨name, fields⟩ := a
  cases fields with
  | nil => simpa [ArmDecl.tokens] using hname
  | cons f rest =>
    have hcommas : Spelled (commas ((f :: rest).map ArmField.tokens)) :=
      spelled_commas (by simpa using hfield)
    simp only [ArmDecl.tokens, spelled_append, spelled_cons, lexical_name, hname, lexical_symbol,
      hcommas, spelled_nil, and_self]

lemma spelled_item (hi : i.Expressible items) (h : i.Prints ts) : Spelled ts := by
  cases h with
  | struct name fields loc =>
    obtain ⟨hname, hfields⟩ := hi
    have hfield : ∀ f ∈ fields, Spelled f.tokens := by
      intro f hf
      simpa [StructField.tokens, (hfields f hf).1] using spelled_typeExpr hitems (hfields f hf).2
    have hcommas : Spelled (commas (fields.map StructField.tokens)) :=
      spelled_commas (by simpa using hfield)
    simp [hname, hcommas]
  | variant name arm rest loc =>
    obtain ⟨hname, -, harms⟩ := hi
    have harm : ∀ a ∈ arm :: rest, Spelled a.tokens := fun a ha =>
      spelled_armDecl hitems (harms a ha).1 (harms a ha).2
    have hbars := spelled_intercalate .bar (forall_mem_map.2 harm)
    simp only [spelled_append, spelled_cons, lexical_keyword, lexical_name, hname, lexical_symbol,
      hbars, spelled_nil, and_self]
  | function => exact hi.elim

omit hitems in
lemma exists_prints_item (hi : i.Expressible items) : ∃ ts, i.Prints ts := by
  cases i with
  | struct name fields loc => exact ⟨_, .struct name fields loc⟩
  | variant name arms loc =>
    obtain ⟨arm, rest, rfl⟩ := exists_cons_of_ne_nil hi.2.1
    exact ⟨_, .variant name arm rest loc⟩
  | outside | function => exact hi.elim

variable (hf : f.Expressible items write)

include hf

lemma spelled_function (h : (Item.function (f.written write)).Prints ts) : Spelled ts := by
  have hparams : ∀ p ∈ f.params, Spelled (p.written write).tokens := by
    intro p hp
    obtain ⟨hname, id, hid, htype⟩ := hf.params p hp
    simpa [ParamDecl.tokens, Param.written, hname, hid] using spelled_typeExpr hitems htype
  have htype : ∀ us ∈ (f.returnType.map write).map TypeExpr.tokens, Spelled us := by
    simpa using fun id hid => spelled_typeExpr hitems (hf.returnType id hid)
  cases h with
  | @function _ us hus =>
    have hcommas : Spelled (commas ((f.params.map (·.written write)).map ParamDecl.tokens)) :=
      spelled_commas (by simpa using hparams)
    simp only [Function.written, spelled_append, spelled_cons, lexical_keyword, lexical_name,
      hf.name, lexical_symbol, hcommas, spelled_optional _ htype,
      spelled_block hitems f.body hf.body us hus, and_self]

lemma spelled_program (h : PrintsEach Item.Prints (items ++ [Item.function (f.written write)]) ts) :
    Spelled ts := by
  refine h.spelled fun i hi us hus => ?_
  rcases mem_append.1 hi with hi | hi
  · exact spelled_item hitems (hitems.each i hi) hus
  · obtain rfl := mem_singleton.1 hi
    exact spelled_function hitems hf hus

lemma exists_prints_program :
    ∃ ts, PrintsEach Item.Prints (items ++ [Item.function (f.written write)]) ts := by
  refine exists_printsEach fun i hi => ?_
  rcases mem_append.1 hi with hi | hi
  · exact exists_prints_item (hitems.each i hi)
  · obtain rfl := mem_singleton.1 hi
    obtain ⟨ts, hts⟩ := exists_prints_block f.body hf.body
    exact ⟨_, .function hts⟩

end Ownership.Sketch
