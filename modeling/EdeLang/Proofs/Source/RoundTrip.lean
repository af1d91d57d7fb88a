import EdeLang.Proofs.Source.Spelling

/-!
# Spelled tokens

Tokens are written one after the other with a space between them. The text has these tokens again:
a space ends every lexeme, and quotes and backslashes inside of literals are escaped.
-/

namespace EdeLang

/-- Characters with a backslash in front of the quote and of every backslash. -/
def escaped (quote : Char) (cs : List Char) : List Char :=
  cs.flatMap fun c => if c = quote ∨ c = '\\' then ['\\', c] else [c]

namespace TokenKind

/-- How a token is written. -/
def spelling : TokenKind → List Char
  | .symbol s => [s.char]
  | .keyword k => k.text.toList
  | .ident name => name.toList
  | .integer v => (toString v.toInt).toList
  | .text s => '"' :: escaped '"' s.toList ++ ['"']
  | .char c => '\'' :: escaped '\'' [c] ++ ['\'']
  | .comment _ | .invalid _ | .eof => []

/-- The token can be written: a name is a word and no keyword, a number is not negative. -/
def Spellable : TokenKind → Prop
  | .symbol _ | .keyword _ | .text _ | .char _ => True
  | .ident name => Lexeme.IsWord name.toList ∧ ∀ k : Keyword, k.text ≠ name
  | .integer v => 0 ≤ v.toInt
  | .comment _ | .invalid _ | .eof => False

/-- Tokens with single spaces between them. -/
def spelled (kinds : List TokenKind) : List Char := [' '].intercalate (kinds.map spelling)

end TokenKind

namespace Lexeme

private theorem unescapes_escaped (cs : List Char) : Unescapes (escaped '"' cs) cs := by
  induction cs with
  | nil => exact .nil
  | cons c cs ih =>
    rw [escaped, List.flatMap_cons]
    by_cases hquote : c = '"'
    · subst hquote
      exact .escape (by decide) ih
    by_cases hslash : c = '\\'
    · subst hslash
      exact .escape (by decide) ih
    have hplain : ¬ (c = '"' ∨ c = '\\') := not_or.mpr ⟨hquote, hslash⟩
    rw [if_neg hplain]
    exact .plain hquote hslash ih

private theorem unescapesChar_escaped (c : Char) : UnescapesChar (escaped '\'' [c]) c := by
  rw [escaped, List.flatMap_singleton]
  by_cases hquote : c = '\''
  · subst hquote
    exact .escape (by decide)
  by_cases hslash : c = '\\'
  · subst hslash
    exact .escape (by decide)
  have hplain : ¬ (c = '\'' ∨ c = '\\') := not_or.mpr ⟨hquote, hslash⟩
  rw [if_neg hplain]
  exact .plain hquote hslash

private theorem isNumeral_toDigits (n : Nat) : IsNumeral (Nat.toDigits 10 n) := by
  refine ⟨?_, fun c hc => Nat.isDigit_of_mem_toDigits (by omega) (by omega) hc⟩
  have hpos : 0 < (Nat.toDigits 10 n).length := Nat.length_toDigits_pos
  exact List.ne_nil_of_length_pos hpos

private theorem spells_decimal {v : Int64} {rest : List Char} (hv : 0 ≤ v.toInt)
    (hrest : ∀ c ∈ rest.head?, c.isDigit = false) :
    Spells rest (toString v.toInt).toList (.integer v) := by
  obtain ⟨n, hn⟩ := Int.eq_ofNat_of_zero_le hv
  have htext : (toString v.toInt).toList = Nat.toDigits 10 n := by
    have hrepr : toString (n : Int) = n.repr := rfl
    rw [hn, hrepr, Nat.toList_repr]
  have hvalue : Nat.ofDigitChars 10 (Nat.toDigits 10 n) 0 = n :=
    Nat.ofDigitChars_toDigits (by omega) (by omega)
  have hlt : n < 2 ^ 63 := by
    have hbound := v.toInt_lt
    omega
  have hword : Int64.ofNat n = v := by
    apply Int64.toInt_inj.mp
    rw [Int64.toInt_ofNat_of_lt hlt, hn]
  have hdigits := isNumeral_toDigits n
  have hspells := Spells.integer (Nat.toDigits 10 n) hdigits (longest_numeral hdigits hrest)
    (by rwa [hvalue])
  rwa [hvalue, hword, ← htext] at hspells

/-- A token is spelled by its characters in front of a space or of the end. -/
theorem spells_spelling {kind : TokenKind} (h : kind.Spellable) (rest : List Char)
    (hrest : ∀ c ∈ rest.head?, c = ' ') : Spells rest kind.spelling kind := by
  have hword : ∀ c ∈ rest.head?, isWordPart c = false := by
    intro c hc
    rw [hrest c hc]
    decide
  cases kind with
  | symbol s =>
    apply Spells.symbol
    intro mark hmark hprefix
    -- the second character of a mark would be the space
    cases rest with
    | nil =>
      simp only [commentMarks, List.mem_cons, List.not_mem_nil, or_false] at hmark
      rcases hmark with rfl | rfl | rfl <;> simp [List.cons_prefix_cons] at hprefix
    | cons c rest =>
      obtain rfl : c = ' ' := hrest c (by simp)
      simp only [commentMarks, List.mem_cons, List.not_mem_nil, or_false] at hmark
      rcases hmark with rfl | rfl | rfl <;> simp [List.cons_prefix_cons] at hprefix
  | keyword k => exact .keyword k (longest_word (isWord_keyword k) hword)
  | ident name => exact .ident name h.1 h.2 (longest_word h.1 hword)
  | integer v =>
    apply spells_decimal h
    intro c hc
    rw [hrest c hc]
    decide
  | text s =>
    have hspells : Spells rest ('"' :: escaped '"' s.toList ++ ['"'])
        (.text (String.ofList s.toList)) := .text (unescapes_escaped s.toList)
    rwa [String.ofList_toList] at hspells
  | char c => exact .char (unescapesChar_escaped c)
  | comment body => exact absurd h id
  | invalid c => exact absurd h id
  | eof => exact absurd h id

private theorem not_comment {kind : TokenKind} (h : kind.Spellable) : kind.isComment = false := by
  cases kind with
  | comment body => exact absurd h id
  | _ => rfl

theorem exists_cut_spelled {keepComments : Bool} {kinds : List TokenKind}
    (h : ∀ k ∈ kinds, k.Spellable) (done : List Char) :
    ∃ ts, Cut keepComments done (TokenKind.spelled kinds) ts ∧ ts.map Token.kind = kinds := by
  induction kinds generalizing done with
  | nil => exact ⟨[], .finished, rfl⟩
  | cons k kinds ih =>
    obtain ⟨hk, hkinds⟩ := List.forall_mem_cons.mp h
    have hkept : k.isComment = true → keepComments = true := by
      rw [not_comment hk]
      exact fun hcomment => absurd hcomment (by decide)
    cases kinds with
    | nil =>
      have hspells := spells_spelling hk [] (by simp)
      exact ⟨[⟨k, Pos.after done⟩], .lexeme hspells hkept .finished, rfl⟩
    | cons k' kinds =>
      obtain ⟨ts, hts, hmap⟩ := ih hkinds (done ++ k.spelling ++ [' '])
      have hspells := spells_spelling hk (' ' :: TokenKind.spelled (k' :: kinds)) (by simp)
      have hcut := Cut.lexeme hspells hkept (Cut.blank (by decide) hts)
      exact ⟨_, hcut, by rw [List.map_cons, hmap]⟩

end Lexeme

/-- Tokens that are spelled with single spaces between them are read again, in their order and
followed by the end. -/
theorem tokenize_spelled {kinds : List TokenKind} (h : ∀ k ∈ kinds, k.Spellable)
    (keepComments : Bool) :
    (tokenize (String.ofList (TokenKind.spelled kinds)) keepComments).map
      (fun tokens => tokens.map Token.kind) = .ok (kinds ++ [.eof]) := by
  obtain ⟨ts, hcut, hkinds⟩ := Lexeme.exists_cut_spelled h []
  rw [← String.toList_ofList (l := TokenKind.spelled kinds)] at hcut
  rw [tokenize_of_cut hcut]
  simp only [Except.map, List.map_append, hkinds, List.map_cons, List.map_nil]

/-- A name that starts with a keyword, the largest number, literals that look like comments or
hold quotes, and symbols that would open a comment without the space. -/
def mixedKinds : List TokenKind :=
  [.keyword .kLet, .ident "lettuce_1", .symbol .equal, .integer 9223372036854775807,
    .text "\"/* \\\n", .char '\'', .symbol .slash, .symbol .slash, .symbol .star, .symbol .slash]

theorem tokenize_spelled_mixedKinds : (∀ k ∈ mixedKinds, k.Spellable) ∧
    (tokenize (String.ofList (TokenKind.spelled mixedKinds)) true).map
      (fun tokens => tokens.map Token.kind) = .ok (mixedKinds ++ [.eof]) := by
  have hname : TokenKind.Spellable (.ident "lettuce_1") := by
    have hparts : "ettuce_1".toList.all Lexeme.isWordPart = true := by decide
    refine ⟨⟨'l', "ettuce_1".toList, by decide, by decide, List.all_eq_true.mp hparts⟩, fun k => ?_⟩
    cases k <;> decide
  have hlargest : (0 : Int) ≤ (9223372036854775807 : Int64).toInt := by decide
  have hkinds : ∀ k ∈ mixedKinds, k.Spellable := by
    simp only [mixedKinds, List.forall_mem_cons]
    exact ⟨trivial, hname, trivial, hlargest, trivial, trivial, trivial, trivial, trivial, trivial,
      by simp⟩
  exact ⟨hkinds, tokenize_spelled hkinds true⟩

end EdeLang
