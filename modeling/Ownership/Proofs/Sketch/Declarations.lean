import Ownership.Proofs.Sketch.Lexing
import Ownership.Proofs.Sketch.Statements

/-!
# Reading a whole sketch back

Declarations are read back like statements, and with the tokens read back before, so is the text of
a whole sketch. The number of its tokens bounds how deep anything in it nests.
-/

namespace Ownership.Sketch

open List Reader

/-! ### Without spans -/

def StructField.bare (f : StructField) : StructField := { f with type := f.type.bare }

def ArmField.bare (f : ArmField) : ArmField := { f with type := f.type.bare }

def ArmDecl.bare (a : ArmDecl) : ArmDecl := { a with fields := a.fields.map ArmField.bare }

def ParamDecl.bare (p : ParamDecl) : ParamDecl := { p with type := p.type.bare, loc := .unknown }

def FunctionDecl.bare (f : FunctionDecl) : FunctionDecl where
  name := f.name
  params := f.params.map ParamDecl.bare
  returnType := f.returnType.map TypeExpr.bare
  body := f.body.bare
  loc := .unknown

def Item.bare : Item → Item
  | struct name fields _ => .struct name (fields.map StructField.bare) .unknown
  | variant name arms _ => .variant name (arms.map ArmDecl.bare) .unknown
  | outside name modes returnType => .outside name modes (returnType.map TypeExpr.bare)
  | function decl => .function decl.bare

/-! ### Types -/

section

variable {depth : Nat} {t : TokenKind} {i : Item} {ts : List TokenKind}

lemma reads_structField (f : StructField) (hdepth : f.tokens.length ≤ depth)
    (follow : List TokenKind) :
    Reads (structField depth) f.tokens follow fun f' => f'.bare = f.bare := by
  simp only [StructField.tokens, length_cons] at hdepth
  refine .name (.expect ?_)
  refine .bind_last (reads_typeExpr f.type (by omega) follow) fun type htype => ?_
  exact .pure (by simp [StructField.bare, htype])

/-- A type that is a name could go on as a named field, so a colon must not come next. -/
lemma reads_armField (f : ArmField) (hdepth : f.tokens.length ≤ depth) (ht : t ≠ .symbol .colon)
    (more : List TokenKind) :
    Reads (armField depth) f.tokens (t :: more) fun f' => f'.bare = f.bare := by
  obtain ⟨name, type⟩ := f
  cases name with
  | some name =>
    simp only [ArmField.tokens, length_cons] at hdepth
    refine .here fun start => .peek?_cons (.skip (.spanFrom fun loc => ?_))
    refine .choose (.bind_last (reads_typeExpr type (by omega) _) fun type' htype => ?_)
    exact .pure (by simp [ArmField.bare, htype])
  | none =>
    have htype := reads_typeExpr type hdepth (t :: more)
    cases type with
    | named name loc =>
      refine .here fun start => .peek?_cons (.skip (.spanFrom fun loc => ?_))
      exact .choose_of_ne (by simpa using ht) (.pure rfl)
    | ref inner mutable | box inner =>
      refine .here fun start => .peek?_cons (.bind_last htype fun type' htype' => ?_)
      exact .pure (by simp [ArmField.bare, htype'])

lemma reads_armDecl (a : ArmDecl) (hdepth : a.tokens.length ≤ depth) (ht : t ≠ .symbol .openParen)
    (more : List TokenKind) :
    Reads (armDecl depth) a.tokens (t :: more) fun a' => a'.bare = a.bare := by
  obtain ⟨name, fields⟩ := a
  cases fields with
  | nil =>
    exact .name (.choose_of_ne (by simpa using ht) (.pure rfl))
  | cons f rest =>
    simp only [ArmDecl.tokens, length_cons, length_append] at hdepth
    have hreads : ∀ f' ∈ f :: rest, ∀ t more, t ≠ .symbol .colon →
        Reads (armField depth) f'.tokens (t :: more) fun f'' => f''.bare = f'.bare := by
      intro f' hf' t more ht
      have hlength := Reads.length_le_of_mem (.symbol .comma)
        (mem_map_of_mem (f := ArmField.tokens) hf')
      rw [← commas] at hlength
      exact reads_armField f' (by omega) ht more
    refine .name (.choose ?_)
    refine .bind (.separated hreads (by simp) (by simp) (by simp)) ?_
    intro fields hfields
    refine .expect (.pure ?_)
    simp [ArmDecl.bare, map_eq_map_of_forall₂ hfields]

lemma reads_paramDecl (p : ParamDecl) (hdepth : p.tokens.length ≤ depth) (follow : List TokenKind) :
    Reads (paramDecl depth) p.tokens follow fun p' => p'.bare = p.bare := by
  simp only [ParamDecl.tokens, length_append, length_cons] at hdepth
  refine .here fun start => .flag (by simp) (.name (.expect ?_))
  refine .bind_last (reads_typeExpr p.type (by omega) follow) fun type htype => ?_
  exact .spanFrom fun loc => .pure (by simp [ParamDecl.bare, htype])

/-! ### Declarations -/

lemma returnType_bind {β : Type} (g : Option TypeExpr → Reader β) :
    (returnType depth >>= g) = hasSymbol .arrow >>= fun found =>
      if found then some <$> typeExpr depth >>= g else Pure.pure none >>= g := by
  rw [returnType, bind_assoc]
  congr
  funext found
  cases found <;> rfl

lemma Item.Prints.ne_nil (h : i.Prints ts) : ts ≠ [] := by
  cases h <;> simp

/-- Every declaration is read back from its tokens. -/
lemma reads_item (h : i.Prints ts) (hdepth : ts.length ≤ depth) (follow : List TokenKind) :
    Reads (item depth) ts follow fun i' => i'.bare = i.bare := by
  cases h with
  | struct name fields loc =>
    simp only [length_cons, length_append] at hdepth
    have hreads : ∀ f ∈ fields, ∀ t more, True →
        Reads (structField depth) f.tokens (t :: more) fun f' => f'.bare = f.bare := by
      intro f hf t more _
      have hlength := Reads.length_le_of_mem (.symbol .comma)
        (mem_map_of_mem (f := StructField.tokens) hf)
      rw [← commas] at hlength
      exact reads_structField f (by omega) (t :: more)
    have hstart : ∀ f ∈ fields, ∃ t more, f.tokens = t :: more ∧ t ≠ .symbol .closeBrace :=
      fun f _ => ⟨_, _, rfl, by simp⟩
    refine .here fun start => .peek?_cons (.skip (.name (.expect ?_)))
    refine .bind_last (.listedLoosely hreads hstart trivial trivial (by decide))
      fun fields' hfields => ?_
    refine .spanFrom fun loc => .pure ?_
    simp [Item.bare, map_eq_map_of_forall₂ hfields]
  | variant name arm rest loc =>
    simp only [length_cons, length_append] at hdepth
    have hreads : ∀ a ∈ arm :: rest, ∀ t more, t ≠ .symbol .openParen →
        Reads (armDecl depth) a.tokens (t :: more) fun a' => a'.bare = a.bare := by
      intro a ha t more ht
      have hlength := Reads.length_le_of_mem (.symbol .bar)
        (mem_map_of_mem (f := ArmDecl.tokens) ha)
      exact reads_armDecl a (by omega) ht more
    refine .here fun start => .peek?_cons (.skip (.name (.expect ?_)))
    refine .bind (.separated hreads (by simp) (by simp) (by simp)) fun arms harms => ?_
    refine .expect (.spanFrom fun loc => .pure ?_)
    simp [Item.bare, map_eq_map_of_forall₂ harms]
  | @function decl us hbody =>
    simp only [length_cons, length_append] at hdepth
    have hreads : ∀ p ∈ decl.params, ∀ t more, True →
        Reads (paramDecl depth) p.tokens (t :: more) fun p' => p'.bare = p.bare := by
      intro p hp t more _
      have hlength := Reads.length_le_of_mem (.symbol .comma)
        (mem_map_of_mem (f := ParamDecl.tokens) hp)
      rw [← commas] at hlength
      exact reads_paramDecl p (by omega) (t :: more)
    have hstart : ∀ p ∈ decl.params, ∃ t more, p.tokens = t :: more ∧ t ≠ .symbol .closeParen := by
      intro p _
      cases hp : p.mutable with
      | false => exact ⟨.name p.name, _, by rw [ParamDecl.tokens, hp]; rfl, by simp⟩
      | true => exact ⟨.keyword .mutable, _, by rw [ParamDecl.tokens, hp]; rfl, by simp⟩
    obtain ⟨rest, hus⟩ := hbody.exists_eq_cons
    refine .here fun start => .peek?_cons (.skip (.name (.expect ?_)))
    rw [append_cons]
    refine .bind (.listed hreads hstart trivial trivial (by decide)) ?_
    intro params hparams
    rw [returnType_bind]
    refine .optional (fun e he => reads_typeExpr e ?_ _) (by simp [hus]) fun type htype => ?_
    · simp only [Option.mem_def.1 he, Option.map_some, Sketch.optional, length_cons] at hdepth
      omega
    have hblock := fun follow =>
      reads_block (reads_stmt depth depth) hbody (by omega) (by omega) follow
    refine .bind_last (hblock _) fun b hb => ?_
    refine .spanFrom fun loc => .pure ?_
    simp [Item.bare, FunctionDecl.bare, map_eq_map_of_forall₂ hparams, map_eq_map_of_rel htype, hb]

end

lemma exists_items {text : List Char} {ts : List TokenKind} {P : List Item → Prop}
    (hkinds : (scan text).tokens.map Token.kind = ts) (hstray : (scan text).stray = none)
    (h : Reads (Reader.all (item ts.length)) ts [] P) (file : Option String) :
    ∃ is, items file text = .ok is ∧ P is := by
  have hlength : (scan text).tokens.length = ts.length := by
    rw [← length_map (f := Token.kind), hkinds]
  obtain ⟨is, last, hrun, his⟩ := h file _ [] none hkinds rfl
  refine ⟨is, ?_, his⟩
  rw [append_nil] at hrun
  simp only [items, hlength, hstray, StateT.run]
  rw [hrun]

theorem items_spaced {is : List Item} {ts : List TokenKind} (h : PrintsEach Item.Prints is ts)
    (hlexical : ∀ t ∈ ts, t.Lexical) (file : Option String) :
    ∃ is', items file (spaced ts) = .ok is' ∧ is'.map Item.bare = is.map Item.bare := by
  obtain ⟨parts, rfl, rfl, hparts⟩ := h.exists_parts
  obtain ⟨hkinds, hstray⟩ := scanFrom_spaced hlexical {}
  rw [← scan] at hkinds hstray
  have hreads : ∀ part ∈ parts, ∀ more, Reads (item (parts.flatMap Prod.snd).length) part.2 more
      fun i => i.bare = part.1.bare := fun part hpart more =>
    reads_item (hparts part hpart) (length_le_length_flatMap_of_mem Prod.snd hpart) more
  have hstart : ∀ part ∈ parts, part.2 ≠ [] := fun part hpart => (hparts part hpart).ne_nil
  have hall := Reads.all (fun part hpart more _ => hreads part hpart more) hstart
  obtain ⟨is', hitems, his⟩ := exists_items hkinds hstray hall file
  refine ⟨is', hitems, ?_⟩
  rw [map_map]
  exact map_eq_map_of_forall₂ his

end Ownership.Sketch
