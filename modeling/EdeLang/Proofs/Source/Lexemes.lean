import EdeLang.Source.Lexeme
import Mathlib.Algebra.BigOperators.Fin

/-!
# Lexemes and their text

What the bodies of comments, strings and character literals are, and what they stand for. A scanned
lexeme and the text after it are the text that was scanned, so the tokens of a text have together no
more characters than the text.
-/

namespace EdeLang

/-- The characters that a token takes at least: one, and those of a string with a quote. -/
def TokenKind.weight : TokenKind → Nat
  | .text s => 1 + s.toList.length
  | _ => 1

def Token.weight (t : Token) : Nat := t.kind.weight

theorem Token.weight_pos (t : Token) : 0 < t.weight := by
  unfold Token.weight TokenKind.weight
  split <;> omega

namespace Lexeme

/-- The characters that make an escape with a backslash in front, and what the two stand for. -/
def escapes : List (Char × Char) :=
  [('t', '\t'), ('n', '\n'), ('\\', '\\'), ('0', '\x00'), ('"', '"'), ('\'', '\'')]

/-- The characters between the quotes of a string, and those they stand for. -/
inductive Unescapes : List Char → List Char → Prop where
  | nil : Unescapes [] []
  | plain {c : Char} {raw value : List Char} : c ≠ '"' → c ≠ '\\' → Unescapes raw value →
      Unescapes (c :: raw) (c :: value)
  | escape {c e : Char} {raw value : List Char} : (c, e) ∈ escapes → Unescapes raw value →
      Unescapes ('\\' :: c :: raw) (e :: value)
  | unknown {c : Char} {raw value : List Char} : (∀ e, (c, e) ∉ escapes) → Unescapes raw value →
      Unescapes ('\\' :: c :: raw) ('\\' :: c :: value)

/-- The characters between the quotes of a character literal, and the one they stand for. -/
inductive UnescapesChar : List Char → Char → Prop where
  | plain {c : Char} : c ≠ '\'' → c ≠ '\\' → UnescapesChar [c] c
  | escape {c e : Char} : (c, e) ∈ escapes → UnescapesChar ['\\', c] e

theorem escape?_eq_some_iff {c e : Char} : escape? c = some e ↔ (c, e) ∈ escapes := by
  unfold escape?
  split <;> simp_all [escapes, eq_comm]

theorem escape?_eq_none_iff {c : Char} : escape? c = none ↔ ∀ e, (c, e) ∉ escapes := by
  simp only [← escape?_eq_some_iff, Option.eq_none_iff_forall_ne_some]

theorem Unescapes.length_le {raw value : List Char} (h : Unescapes raw value) :
    value.length ≤ raw.length := by
  induction h with
  | nil => exact Nat.le_refl 0
  | plain _ _ _ ih => exact Nat.succ_le_succ ih
  | escape _ _ ih => exact Nat.le_succ_of_le (Nat.succ_le_succ ih)
  | unknown _ _ ih => exact Nat.succ_le_succ (Nat.succ_le_succ ih)

theorem blockBody_eq_some_iff {cs body rest : List Char} :
    blockBody cs = some (body, rest) ↔
      cs = body ++ '*' :: '/' :: rest ∧ ¬ ['*', '/'] <:+: body := by
  induction cs using blockBody.induct generalizing body with
  | case1 => simp [blockBody]
  | case2 after =>
    simp only [blockBody, Option.some.injEq, Prod.mk.injEq]
    constructor
    · rintro ⟨rfl, rfl⟩
      exact ⟨rfl, by simp⟩
    · rintro ⟨heq, hbody⟩
      -- a longer body would start with the closing mark
      cases body with
      | nil => simpa using heq
      | cons c body =>
        cases body with
        | nil => simp at heq
        | cons d body =>
          simp only [List.cons_append, List.cons.injEq] at heq
          obtain ⟨rfl, rfl, -⟩ := heq
          exact absurd ⟨[], body, rfl⟩ hbody
  | case3 c cs hmark ih =>
    have hstep : blockBody (c :: cs) = (blockBody cs).map fun found => (c :: found.1, found.2) := by
      rw [blockBody]
      exact hmark
    rw [hstep, Option.map_eq_some_iff]
    constructor
    · rintro ⟨⟨inner, after⟩, hinner, heq⟩
      cases heq
      obtain ⟨rfl, hfree⟩ := ih.mp hinner
      refine ⟨rfl, fun hinfix => ?_⟩
      rcases List.infix_cons_iff.mp hinfix with hprefix | hinfix
      · obtain ⟨more, hmore⟩ := hprefix
        simp only [List.cons_append, List.nil_append, List.cons.injEq] at hmore
        obtain ⟨rfl, rfl⟩ := hmore
        exact hmark (more ++ '*' :: '/' :: after) rfl rfl
      · exact hfree hinfix
    · rintro ⟨heq, hfree⟩
      cases body with
      | nil =>
        simp only [List.nil_append, List.cons.injEq] at heq
        exact absurd heq.2 (hmark rest heq.1)
      | cons d body =>
        simp only [List.cons_append, List.cons.injEq] at heq
        obtain ⟨rfl, rfl⟩ := heq
        have hinner : ¬ ['*', '/'] <:+: body := fun h => hfree (List.infix_cons_iff.mpr (.inr h))
        exact ⟨(body, rest), ih.mpr ⟨rfl, hinner⟩, rfl⟩

private theorem unescapes_of_textBody {cs raw value rest : List Char}
    (h : textBody cs = some (raw, value, rest)) :
    ∃ inner, raw = inner ++ ['"'] ∧ cs = inner ++ '"' :: rest ∧ Unescapes inner value := by
  induction cs using textBody.induct generalizing raw value with
  | case1 => simp [textBody] at h
  | case2 after =>
    simp only [textBody, Option.some.injEq, Prod.mk.injEq] at h
    obtain ⟨rfl, rfl, rfl⟩ := h
    exact ⟨[], rfl, rfl, .nil⟩
  | case3 => simp [textBody] at h
  | case4 c cs ih =>
    rw [textBody] at h
    obtain ⟨⟨raw', value', after⟩, hbody, heq⟩ := Option.map_eq_some_iff.mp h
    cases heq
    obtain ⟨inner, rfl, rfl, hinner⟩ := ih hbody
    refine ⟨'\\' :: c :: inner, rfl, rfl, ?_⟩
    split
    · next e he => exact .escape (escape?_eq_some_iff.mp he) hinner
    · next he => exact .unknown (escape?_eq_none_iff.mp he) hinner
  | case5 c cs hquote hlone hescape ih =>
    have hstep : textBody (c :: cs) =
        (textBody cs).map fun found => (c :: found.1, c :: found.2.1, found.2.2) := by
      rw [textBody]
      · exact hquote
      · exact hlone
      · exact hescape
    rw [hstep] at h
    obtain ⟨⟨raw', value', after⟩, hbody, heq⟩ := Option.map_eq_some_iff.mp h
    cases heq
    obtain ⟨inner, rfl, rfl, hinner⟩ := ih hbody
    have hslash : c ≠ '\\' := by
      rintro rfl
      cases inner with
      | nil => exact hescape '"' _ rfl rfl
      | cons d inner => exact hescape d _ rfl rfl
    exact ⟨c :: inner, rfl, rfl, .plain hquote hslash hinner⟩

private theorem textBody_of_unescapes {inner value : List Char} (h : Unescapes inner value)
    (rest : List Char) :
    textBody (inner ++ '"' :: rest) = some (inner ++ ['"'], value, rest) := by
  induction h with
  | nil => rfl
  | plain hquote hslash _ ih =>
    rw [List.cons_append, textBody, ih]
    · rfl
    · exact hquote
    · exact fun h => absurd h hslash
    · exact fun _ _ h => absurd h hslash
  | escape he _ ih =>
    rw [List.cons_append, List.cons_append, textBody, ih]
    simp [escape?_eq_some_iff.mpr he]
  | unknown he _ ih =>
    rw [List.cons_append, List.cons_append, textBody, ih]
    simp [escape?_eq_none_iff.mpr he]

theorem textBody_eq_some_iff {cs raw value rest : List Char} :
    textBody cs = some (raw, value, rest) ↔
      ∃ inner, raw = inner ++ ['"'] ∧ cs = inner ++ '"' :: rest ∧ Unescapes inner value := by
  constructor
  · exact unescapes_of_textBody
  · rintro ⟨inner, rfl, rfl, hinner⟩
    exact textBody_of_unescapes hinner rest

theorem charBody_eq_some_iff {cs raw rest : List Char} {value : Char} :
    charBody cs = some (raw, value, rest) ↔
      ∃ inner, raw = inner ++ ['\''] ∧ cs = inner ++ '\'' :: rest ∧ UnescapesChar inner value := by
  constructor
  · intro h
    unfold charBody at h
    split at h
    · next c after =>
      obtain ⟨e, he, heq⟩ := Option.map_eq_some_iff.mp h
      cases heq
      exact ⟨['\\', c], rfl, rfl, .escape (escape?_eq_some_iff.mp he)⟩
    · split_ifs at h with hplain
      cases h
      obtain ⟨hquote, hslash⟩ := not_or.mp hplain
      exact ⟨[value], rfl, rfl, .plain hquote hslash⟩
    · cases h
  · rintro ⟨inner, rfl, rfl, hinner⟩
    cases hinner with
    | plain hquote hslash => simp [charBody, hquote, hslash]
    | escape he => simp [charBody, escape?_eq_some_iff.mpr he]

/-- What a scan gives: the text is cut in two, and the lexeme, which is not empty, has characters
for its token. -/
structure Cuts (text : List Char) (l : Lexeme) (rest : List Char) : Prop where
  append_eq : l.chars ++ rest = text
  pos : 0 < l.chars.length
  spelled : ∀ kind, l.kind = some kind → kind.weight ≤ l.chars.length

private theorem Cuts.short {c : Char} {cs chars rest : List Char} {kind : TokenKind}
    (happend : c :: chars ++ rest = c :: cs) (hkind : kind.weight = 1) :
    Cuts (c :: cs) ⟨c :: chars, some kind⟩ rest := by
  refine ⟨happend, by simp, fun k hk => ?_⟩
  cases hk
  rw [hkind]
  simp

private theorem cuts_scanOther {c : Char} {cs rest : List Char} {l : Lexeme}
    (h : scanOther c cs = .ok (l, rest)) : Cuts (c :: cs) l rest := by
  unfold scanOther at h
  split at h
  · cases h
    exact .short rfl rfl
  · split_ifs at h with hdigit hquote htext hword
    · dsimp only at h
      cases hint : integer (c :: cs.takeWhile Char.isDigit) with
      | error e => rw [hint] at h; cases h
      | ok kind =>
        rw [hint] at h
        cases h
        have hweight : kind.weight = 1 := by
          unfold integer at hint
          split_ifs at hint
          cases hint
          rfl
        exact .short (by simp) hweight
    · split at h
      · next raw value after hbody =>
        cases h
        obtain ⟨inner, rfl, rfl, -⟩ := charBody_eq_some_iff.mp hbody
        exact .short (by simp) rfl
      · cases h
    · split at h
      · next raw value after hbody =>
        cases h
        obtain ⟨inner, rfl, rfl, hinner⟩ := textBody_eq_some_iff.mp hbody
        have hle := hinner.length_le
        refine ⟨by simp, by simp, fun kind hkind => ?_⟩
        cases hkind
        simp only [TokenKind.weight, String.toList_ofList, List.length_cons, List.length_append]
        omega
      · cases h
    · cases h
      have hweight : (word (c :: cs.takeWhile isWordPart)).weight = 1 := by
        unfold word
        split <;> rfl
      exact .short (by simp) hweight
    · cases h
      exact .short rfl rfl

theorem cuts_scan {c : Char} {cs rest : List Char} {l : Lexeme}
    (h : scan c cs = .ok (l, rest)) : Cuts (c :: cs) l rest := by
  unfold scan at h
  split at h
  · cases h
    exact .short (by simp) rfl
  · split at h
    · next body after hbody =>
      cases h
      obtain ⟨rfl, -⟩ := blockBody_eq_some_iff.mp hbody
      exact .short (by simp) rfl
    · cases h
  · cases h
  · split_ifs at h
    · cases h
      exact ⟨by simp, by simp, fun kind hkind => by cases hkind⟩
    · exact cuts_scanOther h

private theorem sum_weight_le {fuel : Nat} {pos : Pos} {text : List Char}
    {found : List (Pos × Lexeme)} (h : scanAll fuel pos text = .ok found) :
    ((found.filterMap (token? false)).map Token.weight).sum ≤ text.length := by
  induction fuel generalizing pos text found with
  | zero =>
    cases text with
    | nil => cases h; simp
    | cons c cs => cases h; simp
  | succ fuel ih =>
    cases text with
    | nil => cases h; simp
    | cons c cs =>
      rw [scanAll] at h
      split at h
      · cases h
      · next l rest hscan =>
        split at h
        · cases h
        · next more hmore =>
          cases h
          have hcuts := cuts_scan hscan
          have hrest := ih hmore
          have hlen : l.chars.length + rest.length = (c :: cs).length := by
            rw [← hcuts.append_eq, List.length_append]
          have hfirst : ∀ t, token? false (pos, l) = some t → t.weight ≤ l.chars.length := by
            intro t ht
            unfold token? at ht
            split at ht
            · next kind hkind =>
              split_ifs at ht
              cases ht
              exact hcuts.spelled kind hkind
            · cases ht
          rw [List.filterMap_cons]
          split
          · omega
          · next t ht =>
            have hle := hfirst t ht
            rw [List.map_cons, List.sum_cons]
            omega

end Lexeme

/-- The tokens of a text take its characters and one for the end. -/
theorem sum_weight_tokenize {source : String} {tokens : List Token}
    (h : tokenize source false = .ok tokens) :
    (tokens.map Token.weight).sum ≤ source.length + 1 := by
  unfold tokenize at h
  split at h
  · cases h
  · next found hfound =>
    cases h
    have hle := Lexeme.sum_weight_le hfound
    rw [String.length_toList] at hle
    rw [List.map_append, List.sum_append]
    simp only [List.map_cons, List.map_nil, List.sum_cons, List.sum_nil, Token.weight,
      TokenKind.weight]
    omega

end EdeLang
