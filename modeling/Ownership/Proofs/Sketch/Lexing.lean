import Mathlib.Data.List.TakeWhile
import Ownership.Proofs.Sketch.Printing

/-!
# Reading tokens back

Tokens that are spelled with one blank between them are read as the same tokens. A blank ends every
token, so it is enough to look at one token and a text that begins with a blank, if at all.
-/

namespace Ownership.Sketch

variable {more rest : List Char} {c : Char} {word : String} {t : TokenKind}

/-- Tokens that have a spelling of their own: names are no keywords, numbers have digits, and texts
fit between quotes. -/
def TokenKind.Lexical : TokenKind → Prop
  | name word => IsName word
  | numeral digits => digits ≠ [] ∧ ∀ c ∈ digits, c.isDigit
  | text value => isQuotable value.toList
  | keyword _ | symbol _ => True

/-- Texts that begin with a blank, if at all. -/
def Parted (rest : List Char) : Prop := ∀ c ∈ rest.head?, c = ' '

lemma parted_nil : Parted [] := by simp [Parted]

lemma parted_cons (rest : List Char) : Parted (' ' :: rest) := by simp [Parted]

lemma takeWhile_append_parted {p : Char → Bool} (hp : p ' ' = false) (hm : ∀ c ∈ more, p c)
    (hr : Parted rest) : (more ++ rest).takeWhile p = more := by
  rw [List.takeWhile_append_of_pos hm]
  cases rest with
  | nil => simp
  | cons c rest =>
    obtain rfl : c = ' ' := hr c rfl
    simp [hp]

/-! ### One token -/

lemma isBlank_eq_false_of_isNameStart (h : isNameStart c) : isBlank c = false := by
  by_contra hb
  simp only [isBlank, Bool.not_eq_false, Bool.or_eq_true, decide_eq_true_eq] at hb
  rcases hb with (((rfl | rfl) | rfl) | rfl) | rfl <;> simp [isNameStart] at h

lemma isBlank_eq_false_of_isDigit (h : c.isDigit) : isBlank c = false := by
  by_contra hb
  simp only [isBlank, Bool.not_eq_false, Bool.or_eq_true, decide_eq_true_eq] at hb
  rcases hb with (((rfl | rfl) | rfl) | rfl) | rfl <;> contradiction

lemma isNameStart_eq_false_of_isDigit (h : c.isDigit) : isNameStart c = false := by
  by_contra hn
  simp only [isNameStart, Bool.not_eq_false, Bool.or_eq_true, decide_eq_true_eq] at hn
  rcases hn with hn | rfl
  · have hletter : decide (65 ≤ c.val ∧ c.val ≤ 90) ||
        decide (97 ≤ c.val) && decide (c.val ≤ 122) := hn
    have hdigit : decide (48 ≤ c.val) && decide (c.val ≤ 57) := h
    simp only [Bool.or_eq_true, Bool.and_eq_true, decide_eq_true_eq] at hletter hdigit
    grind
  · simp at h

lemma lexeme_word (hw : isWord word.toList) (hr : Parted rest) :
    ∃ c more, word.toList = c :: more ∧
      lexeme c (more ++ rest) = some (some (.ofWord word), more.length) := by
  cases hchars : word.toList with
  | nil => simp [hchars, isWord] at hw
  | cons c more =>
    simp only [hchars, isWord, Bool.and_eq_true, List.all_eq_true] at hw
    obtain ⟨hc, hm⟩ := hw
    have hstart : isNameStart c = true := hc
    have hmore : (more ++ rest).takeWhile isNamePart = more :=
      takeWhile_append_parted (by decide) hm hr
    have hword : String.ofList (c :: more) = word := by rw [← hchars, String.ofList_toList]
    refine ⟨c, more, rfl, ?_⟩
    simp [lexeme, isBlank_eq_false_of_isNameStart hstart, hstart, hmore, hword]

lemma TokenKind.ofWord_of_isName (h : IsName word) : ofWord word = .name word := by
  have hnone : Keyword.ofWord? word = none := by
    rw [Keyword.ofWord?, List.find?_eq_none]
    intro k hk
    have hne : k.spelling ≠ word := fun he => h.2 (he ▸ List.mem_map_of_mem hk)
    simpa using hne
  simp [ofWord, hnone]

lemma lexeme_digits (hd : ∀ d ∈ c :: more, d.isDigit) (hr : Parted rest) :
    lexeme c (more ++ rest) = some (some (.numeral (c :: more)), more.length) := by
  have hc : c.isDigit := hd c (by simp)
  have hmore : (more ++ rest).takeWhile Char.isDigit = more :=
    takeWhile_append_parted (by decide) (fun d h => hd d (by simp [h])) hr
  simp [lexeme, isBlank_eq_false_of_isDigit hc, isNameStart_eq_false_of_isDigit hc, hc, hmore]

lemma textLength?_of_isQuotable (rest : List Char) (value : List Char) (h : isQuotable value) :
    textLength? false (value ++ '"' :: rest) = some value.length := by
  fun_induction isQuotable value with
  | case1 => simp [textLength?]
  | case2 => simp at h
  | case3 c more ih =>
    simp only [Bool.and_eq_true, decide_eq_true_eq, ne_eq] at h
    simp [textLength?, h.1, ih h.2]
  | case4 c more hnot hcons ih =>
    simp only [Bool.and_eq_true, decide_eq_true_eq, ne_eq] at h
    have hc : c ≠ '\\' := by
      rintro rfl
      cases more with
      | nil => exact hnot rfl rfl
      | cons d more => exact hcons d more rfl rfl
    simp [textLength?, h.1.1, h.1.2, hc, ih h.2]

lemma lexeme_quote {value : List Char} (rest : List Char) (h : isQuotable value) :
    lexeme '"' (value ++ '"' :: rest) =
      some (some (.text (String.ofList value)), value.length + 1) := by
  have hq : isBlank '"' = false ∧ isNameStart '"' = false ∧ Char.isDigit '"' = false := by decide
  simp [lexeme, hq, textLength?_of_isQuotable rest value h]

lemma lexeme_symbol (s : Symbol) (hr : Parted rest) :
    ∃ c more, s.spelling = c :: more ∧
      lexeme c (more ++ rest) = some (some (.symbol s), more.length) := by
  cases rest with
  | nil => cases s <;> exact ⟨_, _, rfl, by decide⟩
  | cons d rest =>
    obtain rfl : d = ' ' := hr d rfl
    cases s <;> exact ⟨_, _, rfl, by simp [lexeme, isBlank, isNameStart, Symbol.starting?,
      Symbol.all, Symbol.spelling]⟩

lemma TokenKind.Lexical.lexeme (h : t.Lexical) (hr : Parted rest) :
    ∃ c more, t.spelling = c :: more ∧ lexeme c (more ++ rest) = some (some t, more.length) := by
  cases t with
  | name word =>
    simpa only [ofWord_of_isName h, spelling] using lexeme_word h.1 hr
  | keyword k =>
    have hk : ofWord k.spelling = .keyword k := by simp [ofWord, Keyword.ofWord?_spelling]
    have hw : isWord k.spelling.toList := by cases k <;> decide
    simpa only [hk, spelling] using lexeme_word hw hr
  | numeral digits =>
    obtain ⟨c, more, rfl⟩ := List.exists_cons_of_ne_nil h.1
    exact ⟨c, more, rfl, lexeme_digits h.2 hr⟩
  | text value =>
    refine ⟨'"', value.toList ++ ['"'], rfl, ?_⟩
    simpa using lexeme_quote rest h
  | symbol s => exact lexeme_symbol s hr

/-! ### All tokens -/

lemma TokenKind.Lexical.scanFrom (h : t.Lexical) (hr : Parted rest) (spot : Spot) :
    ∃ stop, scanFrom spot (t.spelling ++ rest) =
      (scanFrom stop rest).push { kind := t, start := spot, stop } := by
  obtain ⟨c, more, hspelling, hlexeme⟩ := h.lexeme hr
  rw [hspelling, List.cons_append, Sketch.scanFrom, hlexeme]
  simp only [List.take_left, List.drop_left]
  exact ⟨_, rfl⟩

lemma scanFrom_blank (spot : Spot) (rest : List Char) :
    scanFrom spot (' ' :: rest) = scanFrom (spot.next ' ') rest := by
  have hblank : lexeme ' ' rest = some (none, 0) := by simp [lexeme, isBlank]
  rw [scanFrom, hblank]
  simp

/-- Tokens that are spelled with blanks between them are read back, and nothing else is. -/
lemma scanFrom_spaced {ts : List TokenKind} (h : ∀ t ∈ ts, t.Lexical) (spot : Spot) :
    (scanFrom spot (spaced ts)).tokens.map Token.kind = ts ∧
      (scanFrom spot (spaced ts)).stray = none := by
  induction ts generalizing spot with
  | nil => simp [spaced, scanFrom]
  | cons t ts ih =>
    have ht : t.Lexical := h t (by simp)
    have hts : ∀ u ∈ ts, u.Lexical := fun u hu => h u (by simp [hu])
    cases ts with
    | nil =>
      obtain ⟨stop, hscan⟩ := ht.scanFrom parted_nil spot
      have hspaced : spaced [t] = t.spelling ++ [] := by simp [spaced]
      rw [hspaced, hscan]
      simp [Scan.push, Sketch.scanFrom]
    | cons u ts =>
      have hspaced : spaced (t :: u :: ts) = t.spelling ++ ' ' :: spaced (u :: ts) := by
        simp [spaced, List.intercalate_cons_cons]
      obtain ⟨stop, hscan⟩ := ht.scanFrom (parted_cons (spaced (u :: ts))) spot
      obtain ⟨hkinds, hstray⟩ := ih hts (stop.next ' ')
      rw [hspaced, hscan, scanFrom_blank]
      exact ⟨by simp [Scan.push, hkinds], by simp [Scan.push, hstray]⟩

end Ownership.Sketch
