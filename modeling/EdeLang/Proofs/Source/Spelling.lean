import EdeLang.Proofs.Source.Lexemes
import Mathlib.Data.List.TakeWhile

/-!
# Spellings

Which characters spell a token in front of some text, and how a text is cut into white space,
comments and spellings. The scanner finds a lexeme exactly where there is a spelling, so the tokens
of a text are those of its one cut, each with the place that the characters before it give.
-/

namespace EdeLang

/-- The place after some characters: line feeds count the lines, and the characters since the last
one the columns. -/
def Pos.after (before : List Char) : Pos :=
  ⟨1 + before.count '\n', 1 + (before.reverse.takeWhile (· != '\n')).length⟩

theorem Pos.next_after (before : List Char) (c : Char) :
    (Pos.after before).next c = Pos.after (before ++ [c]) := by
  by_cases hc : c = '\n'
  · simp [Pos.after, Pos.next, hc, Nat.add_assoc]
  · have hcount : List.count '\n' [c] = 0 := by simp [hc]
    simp [Pos.after, Pos.next, hc, Nat.add_comm]

theorem Pos.advance_after (before chars : List Char) :
    (Pos.after before).advance chars = Pos.after (before ++ chars) := by
  induction chars generalizing before with
  | nil => simp [Pos.advance]
  | cons c chars ih =>
    have hstep : (Pos.after before).advance (c :: chars) =
        ((Pos.after before).next c).advance chars := rfl
    rw [hstep, Pos.next_after, ih, List.append_assoc, List.singleton_append]

theorem Symbol.ofChar?_char (s : Symbol) : Symbol.ofChar? s.char = some s := by
  cases s <;> rfl

theorem Symbol.char_of_ofChar? {c : Char} {s : Symbol} (h : Symbol.ofChar? c = some s) :
    s.char = c := by
  have hfound := List.find?_some h
  simpa using hfound

theorem Symbol.ofChar?_eq_none_iff {c : Char} :
    Symbol.ofChar? c = none ↔ ∀ s : Symbol, s.char ≠ c := by
  constructor
  · rintro hnone s rfl
    simp [Symbol.ofChar?_char] at hnone
  · intro hdiffer
    cases hfound : Symbol.ofChar? c with
    | none => rfl
    | some s => exact absurd (Symbol.char_of_ofChar? hfound) (hdiffer s)

theorem Keyword.ofText?_text (k : Keyword) : Keyword.ofText? k.text = some k := by
  cases k <;> decide

theorem Keyword.text_of_ofText? {s : String} {k : Keyword} (h : Keyword.ofText? s = some k) :
    k.text = s := by
  have hfound := List.find?_some h
  simpa using hfound

theorem Keyword.ofText?_eq_none_iff {s : String} :
    Keyword.ofText? s = none ↔ ∀ k : Keyword, k.text ≠ s := by
  constructor
  · rintro hnone k rfl
    simp [Keyword.ofText?_text] at hnone
  · intro hdiffer
    cases hfound : Keyword.ofText? s with
    | none => rfl
    | some k => exact absurd (Keyword.text_of_ofText? hfound) (hdiffer k)

namespace Text

theorem Ranges.not_contains_of_apart {first second : Ranges} {code : Nat}
    (hapart : ∀ r ∈ first, ∀ s ∈ second, r.2 < s.1 ∨ s.2 < r.1)
    (hfirst : first.contains code = true) : second.contains code = false := by
  obtain ⟨r, hr, hcode⟩ := List.any_eq_true.mp hfirst
  apply List.any_eq_false.mpr
  intro s hs
  have hrs := hapart r hr s hs
  simp only [decide_eq_true_eq] at hcode ⊢
  omega

private theorem whitespace_apart :
    ∀ r ∈ whitespaceRanges, ∀ s ∈ alphabeticRanges, r.2 < s.1 ∨ s.2 < r.1 := by
  decide +kernel

private theorem le_of_isAlpha {c : Char} (h : c.isAlpha = true) : 65 ≤ c.toNat := by
  have hvalue : c.val.toNat = c.toNat := rfl
  have hupper : 'A'.val.toNat = 65 := rfl
  have hlower : 'a'.val.toNat = 97 := rfl
  have hcases : (decide ('A'.val ≤ c.val ∧ c.val ≤ 'Z'.val) ||
      (decide ('a'.val ≤ c.val) && decide (c.val ≤ 'z'.val))) = true := h
  simp only [Bool.or_eq_true, Bool.and_eq_true, decide_eq_true_eq, UInt32.le_iff_toNat_le,
    hvalue] at hcases
  omega

private theorem bounds_of_isDigit {c : Char} (h : c.isDigit = true) :
    48 ≤ c.toNat ∧ c.toNat ≤ 57 := by
  have hvalue : c.val.toNat = c.toNat := rfl
  have hzero : '0'.val.toNat = 48 := rfl
  have hnine : '9'.val.toNat = 57 := rfl
  simp only [Char.isDigit, Bool.and_eq_true, decide_eq_true_eq, ge_iff_le,
    UInt32.le_iff_toNat_le, hvalue] at h
  omega

theorem not_isAlphabetic_of_isDigit {c : Char} (h : c.isDigit = true) :
    isAlphabetic c = false := by
  have hbounds := bounds_of_isDigit h
  have hascii : c.toNat < 128 := by omega
  unfold isAlphabetic
  rw [if_pos hascii]
  apply Bool.eq_false_iff.mpr
  intro halpha
  have hle := le_of_isAlpha halpha
  omega

theorem not_isWhitespace_of_isDigit {c : Char} (h : c.isDigit = true) :
    isWhitespace c = false := by
  have hbounds := bounds_of_isDigit h
  have hascii : c.toNat < 128 := by omega
  unfold isWhitespace
  rw [if_pos hascii, Bool.or_eq_false_iff]
  refine ⟨beq_eq_false_iff_ne.mpr ?_, decide_eq_false (by omega)⟩
  rintro rfl
  exact absurd h (by decide)

theorem not_isWhitespace_of_isAlphabetic {c : Char} (h : isAlphabetic c = true) :
    isWhitespace c = false := by
  apply Bool.eq_false_iff.mpr
  intro hblank
  unfold isWhitespace at hblank
  unfold isAlphabetic at h
  split_ifs at h hblank with hascii
  · have hle := le_of_isAlpha h
    simp only [Bool.or_eq_true, beq_iff_eq, decide_eq_true_eq] at hblank
    rcases hblank with rfl | hcontrol
    · exact absurd h (by decide)
    · omega
  · rw [Ranges.not_contains_of_apart whitespace_apart hblank] at h
    exact absurd h (by decide)

end Text

namespace Lexeme

def IsWord (chars : List Char) : Prop :=
  ∃ c cs, chars = c :: cs ∧ isWordStart c = true ∧ ∀ d ∈ cs, isWordPart d = true

def IsNumeral (chars : List Char) : Prop := chars ≠ [] ∧ ∀ c ∈ chars, c.isDigit = true

/-- No longer stretch of the text from the same start on is of the class. -/
def Longest (p : List Char → Prop) (chars rest : List Char) : Prop :=
  ∀ longer, longer <+: chars ++ rest → p longer → longer.length ≤ chars.length

def commentMarks : List (List Char) := [['/', '/'], ['/', '*'], ['*', '/']]

/-- The body is its middle between blanks, and neither end of the middle is a blank. -/
def Trims (body middle : List Char) : Prop :=
  ∃ before after, body = before ++ middle ++ after ∧
    (∀ c ∈ before, Text.isWhitespace c = true) ∧ (∀ c ∈ after, Text.isWhitespace c = true) ∧
    (∀ c ∈ middle.head?, Text.isWhitespace c = false) ∧
    ∀ c ∈ middle.getLast?, Text.isWhitespace c = false

/-- The character starts no white space, no symbol, no literal and no word. -/
structure Stray (c : Char) : Prop where
  notBlank : Text.isWhitespace c = false
  noSymbol : ∀ s : Symbol, s.char ≠ c
  noDigit : c.isDigit = false
  noQuote : c ≠ '\'' ∧ c ≠ '"'
  noWord : isWordStart c = false

/-- The characters spell the token in front of the rest of a text. -/
inductive Spells (rest : List Char) : List Char → TokenKind → Prop where
  | symbol (s : Symbol) : (∀ mark ∈ commentMarks, ¬ mark <+: s.char :: rest) →
      Spells rest [s.char] (.symbol s)
  | keyword (k : Keyword) : Longest IsWord k.text.toList rest →
      Spells rest k.text.toList (.keyword k)
  | ident (name : String) : IsWord name.toList → (∀ k : Keyword, k.text ≠ name) →
      Longest IsWord name.toList rest → Spells rest name.toList (.ident name)
  | integer (digits : List Char) : IsNumeral digits → Longest IsNumeral digits rest →
      Nat.ofDigitChars 10 digits 0 < 2 ^ 63 →
      Spells rest digits (.integer (Int64.ofNat (Nat.ofDigitChars 10 digits 0)))
  | text {raw value : List Char} : Unescapes raw value →
      Spells rest ('"' :: raw ++ ['"']) (.text (String.ofList value))
  | char {raw : List Char} {value : Char} : UnescapesChar raw value →
      Spells rest ('\'' :: raw ++ ['\'']) (.char value)
  | lineComment {body middle : List Char} : '\n' ∉ body → (∀ c ∈ rest.head?, c = '\n') →
      Trims body middle → Spells rest ('/' :: '/' :: body) (.comment (String.ofList middle))
  | blockComment {body middle : List Char} : ¬ ['*', '/'] <:+: body → Trims body middle →
      Spells rest ('/' :: '*' :: body ++ ['*', '/']) (.comment (String.ofList middle))
  | invalid {c : Char} : Stray c → Spells rest [c] (.invalid c)

/-- The text, after what is done of it, is cut into white space, comments that are not kept, and
one lexeme for each token. -/
inductive Cut (keepComments : Bool) : List Char → List Char → List Token → Prop where
  | finished {done : List Char} : Cut keepComments done [] []
  | blank {done rest : List Char} {c : Char} {ts : List Token} : Text.isWhitespace c = true →
      Cut keepComments (done ++ [c]) rest ts → Cut keepComments done (c :: rest) ts
  | comment {done chars rest : List Char} {kind : TokenKind} {ts : List Token} :
      Spells rest chars kind → kind.isComment = true → keepComments = false →
      Cut keepComments (done ++ chars) rest ts → Cut keepComments done (chars ++ rest) ts
  | lexeme {done chars rest : List Char} {kind : TokenKind} {ts : List Token} :
      Spells rest chars kind → (kind.isComment = true → keepComments = true) →
      Cut keepComments (done ++ chars) rest ts →
      Cut keepComments done (chars ++ rest) (⟨kind, Pos.after done⟩ :: ts)

private theorem longest_of_head {p : List Char → Prop} {q : Char → Bool} {chars rest : List Char}
    (hclass : ∀ c cs d, p (c :: cs) → d ∈ cs → q d = true) (hchars : chars ≠ [])
    (hrest : ∀ c ∈ rest.head?, q c = false) : Longest p chars rest := by
  intro longer hprefix hp
  obtain ⟨c, cs, rfl⟩ := List.exists_cons_of_ne_nil hchars
  by_contra hlong
  have hlong : (c :: cs).length < longer.length := Nat.lt_of_not_le hlong
  obtain ⟨more, rfl⟩ : (c :: cs) <+: longer :=
    List.prefix_of_prefix_length_le (List.prefix_append _ _) hprefix (Nat.le_of_lt hlong)
  cases more with
  | nil => simp at hlong
  | cons d more =>
    have hnext : d :: more <+: rest := (List.prefix_append_right_inj (c :: cs)).mp hprefix
    obtain ⟨after, rfl⟩ := hnext
    have hpart : q d = true := hclass c (cs ++ d :: more) d hp (by simp)
    have hnot : q d = false := hrest d (by simp)
    simp [hpart] at hnot

/-- What follows a longest run that can be continued by characters of a class is not of it. -/
private theorem Longest.head {p : List Char → Prop} {q : Char → Bool} {chars rest : List Char}
    (h : Longest p chars rest) (hgrow : ∀ d, q d = true → p (chars ++ [d])) :
    ∀ c ∈ rest.head?, q c = false := by
  intro c hc
  by_contra hq
  obtain ⟨more, rfl⟩ : ∃ more, rest = c :: more := by
    cases rest with
    | nil => simp at hc
    | cons d more => exact ⟨more, by simpa using hc⟩
  have hlonger := h (chars ++ [c]) ⟨more, by simp⟩ (hgrow c (by simpa using hq))
  rw [List.length_append, List.length_singleton] at hlonger
  omega

private theorem IsWord.grow {chars : List Char} (h : IsWord chars) {d : Char}
    (hd : isWordPart d = true) : IsWord (chars ++ [d]) := by
  obtain ⟨c, cs, rfl, hc, hcs⟩ := h
  refine ⟨c, cs ++ [d], rfl, hc, fun e he => ?_⟩
  rcases List.mem_append.mp he with he | he
  · exact hcs e he
  · simp only [List.mem_singleton] at he
    rwa [he]

private theorem IsNumeral.grow {chars : List Char} (h : IsNumeral chars) {d : Char}
    (hd : d.isDigit = true) : IsNumeral (chars ++ [d]) := by
  refine ⟨by simp, fun e he => ?_⟩
  rcases List.mem_append.mp he with he | he
  · exact h.2 e he
  · simp only [List.mem_singleton] at he
    rwa [he]

theorem longest_word {chars rest : List Char} (hchars : IsWord chars)
    (hrest : ∀ c ∈ rest.head?, isWordPart c = false) : Longest IsWord chars rest := by
  apply longest_of_head (q := isWordPart)
  · rintro c cs d ⟨c', cs', heq, -, hcs⟩ hd
    cases heq
    exact hcs d hd
  · obtain ⟨c, cs, rfl, -⟩ := hchars
    simp
  · exact hrest

theorem longest_numeral {chars rest : List Char} (hchars : IsNumeral chars)
    (hrest : ∀ c ∈ rest.head?, c.isDigit = false) : Longest IsNumeral chars rest := by
  apply longest_of_head (q := Char.isDigit) _ hchars.1 hrest
  intro c cs d hnumeral hd
  exact hnumeral.2 d (List.mem_cons_of_mem c hd)

private theorem takeWhile_append_of_head {q : Char → Bool} {cs rest : List Char}
    (hcs : ∀ d ∈ cs, q d = true) (hrest : ∀ c ∈ rest.head?, q c = false) :
    (cs ++ rest).takeWhile q = cs ∧ (cs ++ rest).dropWhile q = rest := by
  rw [List.takeWhile_append_of_pos hcs, List.dropWhile_append_of_pos hcs]
  cases rest with
  | nil => simp
  | cons c rest =>
    have hc : q c = false := hrest c (by simp)
    simp [hc]

theorem head?_dropWhile {q : Char → Bool} (cs : List Char) :
    ∀ c ∈ (cs.dropWhile q).head?, q c = false := by
  intro c hc
  have hnot := List.head?_dropWhile_not q cs
  rw [Option.mem_def.mp hc] at hnot
  simpa using hnot

private theorem trimmed_eq_of_trims {body middle : List Char} (h : Trims body middle) :
    Text.trimmed body = middle := by
  obtain ⟨before, after, rfl, hbefore, hafter, hfirst, hlast⟩ := h
  unfold Text.trimmed
  by_cases hmiddle : middle = []
  · have hblanks : ∀ c ∈ before ++ middle ++ after, Text.isWhitespace c = true := by
      intro c hc
      rw [hmiddle, List.append_nil] at hc
      exact (List.mem_append.mp hc).elim (hbefore c) (hafter c)
    rw [List.dropWhile_eq_nil_iff.mpr hblanks, hmiddle]
    rfl
  · have hhead : ∀ c ∈ (middle ++ after).head?, Text.isWhitespace c = false := by
      rwa [List.head?_append_of_ne_nil _ hmiddle]
    have hback : ∀ c ∈ after.reverse, Text.isWhitespace c = true := fun c hc =>
      hafter c (List.mem_reverse.mp hc)
    have hend : ∀ c ∈ middle.reverse.head?, Text.isWhitespace c = false := by
      rwa [List.head?_reverse]
    rw [List.append_assoc, (takeWhile_append_of_head hbefore hhead).2, List.reverse_append,
      (takeWhile_append_of_head hback hend).2, List.reverse_reverse]

private theorem trims_trimmed (body : List Char) : Trims body (Text.trimmed body) := by
  let start := body.dropWhile Text.isWhitespace
  let after := (start.reverse.takeWhile Text.isWhitespace).reverse
  have hstart : Text.trimmed body ++ after = start := by
    have hcut := List.takeWhile_append_dropWhile (p := Text.isWhitespace) (l := start.reverse)
    rw [← List.reverse_reverse start, ← hcut, List.reverse_append]
    rfl
  refine ⟨body.takeWhile Text.isWhitespace, after, ?_, ?_, ?_, ?_, ?_⟩
  · rw [List.append_assoc, hstart, List.takeWhile_append_dropWhile]
  · exact fun c hc => List.mem_takeWhile_imp hc
  · exact fun c hc => List.mem_takeWhile_imp (List.mem_reverse.mp hc)
  · intro c hc
    have hhead : c ∈ start.head? := by
      rw [← hstart, List.head?_append, Option.mem_def.mp hc]
      rfl
    exact head?_dropWhile body c hhead
  · intro c hc
    rw [Text.trimmed, List.getLast?_reverse] at hc
    exact head?_dropWhile _ c hc

/-- Trimming finds the one middle of a body. -/
theorem trims_iff {body middle : List Char} : Trims body middle ↔ Text.trimmed body = middle := by
  constructor
  · exact trimmed_eq_of_trims
  · rintro rfl
    exact trims_trimmed body

theorem symbol_not_blank (s : Symbol) : Text.isWhitespace s.char = false := by
  cases s <;> decide

theorem symbol_not_digit (s : Symbol) : s.char.isDigit = false := by
  cases s <;> decide

theorem symbol_not_wordStart (s : Symbol) : isWordStart s.char = false := by
  cases s <;> decide

private theorem no_mark {c : Char} (hsymbol : ∀ s : Symbol, s.char ≠ c) (cs : List Char) :
    ∀ mark ∈ commentMarks, ¬ mark <+: c :: cs := by
  have hslash : '/' ≠ c := hsymbol .slash
  have hstar : '*' ≠ c := hsymbol .star
  simp [commentMarks, List.cons_prefix_cons, hslash, hstar]

private theorem scan_of_no_mark {c : Char} {cs : List Char}
    (hmark : ∀ mark ∈ commentMarks, ¬ mark <+: c :: cs) (hblank : Text.isWhitespace c = false) :
    scan c cs = scanOther c cs := by
  unfold scan
  split
  · exact absurd (by simp) (hmark ['/', '/'] (by simp [commentMarks]))
  · exact absurd (by simp) (hmark ['/', '*'] (by simp [commentMarks]))
  · exact absurd (by simp) (hmark ['*', '/'] (by simp [commentMarks]))
  · simp [hblank]

private theorem scan_blank {c : Char} (hblank : Text.isWhitespace c = true) (cs : List Char) :
    scan c cs = .ok (⟨c :: cs.takeWhile Text.isWhitespace, none⟩,
      cs.dropWhile Text.isWhitespace) := by
  unfold scan
  split
  · exact absurd hblank (by decide)
  · exact absurd hblank (by decide)
  · exact absurd hblank (by decide)
  · rw [if_pos hblank]

private theorem wordStart_apart {c : Char} (h : isWordStart c = true) :
    (∀ s : Symbol, s.char ≠ c) ∧ c.isDigit = false ∧ c ≠ '\'' ∧ c ≠ '"' ∧
      Text.isWhitespace c = false := by
  refine ⟨?_, ?_, ?_, ?_, ?_⟩
  · rintro s rfl
    simp [symbol_not_wordStart] at h
  · apply Bool.eq_false_iff.mpr
    intro hdigit
    simp only [isWordStart, Text.not_isAlphabetic_of_isDigit hdigit, Bool.false_or,
      beq_iff_eq] at h
    subst h
    exact absurd hdigit (by decide)
  · rintro rfl
    exact absurd h (by decide)
  · rintro rfl
    exact absurd h (by decide)
  · simp only [isWordStart, Bool.or_eq_true, beq_iff_eq] at h
    rcases h with h | rfl
    · exact Text.not_isWhitespace_of_isAlphabetic h
    · decide

private theorem spells_word {c : Char} {cs rest : List Char} (hc : isWordStart c = true)
    (hcs : ∀ d ∈ cs, isWordPart d = true) (hrest : ∀ d ∈ rest.head?, isWordPart d = false) :
    Spells rest (c :: cs) (word (c :: cs)) := by
  have hword : IsWord (c :: cs) := ⟨c, cs, rfl, hc, hcs⟩
  have hlongest : Longest IsWord (c :: cs) rest := longest_word hword hrest
  unfold word
  split
  · next k hk =>
    have htext : k.text.toList = c :: cs := by
      rw [Keyword.text_of_ofText? hk, String.toList_ofList]
    have hspells := Spells.keyword k (htext ▸ hlongest)
    rwa [htext] at hspells
  · next hnone =>
    have htext : (String.ofList (c :: cs)).toList = c :: cs := String.toList_ofList
    rw [← htext] at hword hlongest
    have hspells := Spells.ident _ hword (Keyword.ofText?_eq_none_iff.mp hnone) hlongest
    rwa [htext] at hspells

private theorem spells_integer {digits rest : List Char} {kind : TokenKind}
    (hdigits : IsNumeral digits) (hrest : ∀ d ∈ rest.head?, d.isDigit = false)
    (h : integer digits = .ok kind) : Spells rest digits kind := by
  unfold integer at h
  split_ifs at h with hlt
  cases h
  exact .integer digits hdigits (longest_numeral hdigits hrest) hlt

private theorem spells_of_scanOther {c : Char} {cs rest : List Char} {l : Lexeme}
    (hmark : ∀ mark ∈ commentMarks, ¬ mark <+: c :: cs) (hblank : Text.isWhitespace c = false)
    (h : scanOther c cs = .ok (l, rest)) :
    ∃ kind, l.kind = some kind ∧ Spells rest l.chars kind := by
  unfold scanOther at h
  split at h
  · next s hs =>
    cases h
    have hchar := Symbol.char_of_ofChar? hs
    subst hchar
    exact ⟨_, rfl, .symbol s hmark⟩
  · next hsymbol =>
    split_ifs at h with hdigit hquote htext hword
    · dsimp only at h
      cases hint : integer (c :: cs.takeWhile Char.isDigit) with
      | error e => rw [hint] at h; cases h
      | ok kind =>
        rw [hint] at h
        cases h
        have hnumeral : IsNumeral (c :: cs.takeWhile Char.isDigit) :=
          ⟨by simp, List.forall_mem_cons.mpr ⟨hdigit, fun _ hd => List.mem_takeWhile_imp hd⟩⟩
        exact ⟨kind, rfl, spells_integer hnumeral (head?_dropWhile cs) hint⟩
    · split at h
      · next raw value after hbody =>
        cases h
        obtain ⟨inner, rfl, -, hinner⟩ := charBody_eq_some_iff.mp hbody
        subst hquote
        exact ⟨_, rfl, .char hinner⟩
      · cases h
    · split at h
      · next raw value after hbody =>
        cases h
        obtain ⟨inner, rfl, -, hinner⟩ := textBody_eq_some_iff.mp hbody
        subst htext
        exact ⟨_, rfl, .text hinner⟩
      · cases h
    · cases h
      exact ⟨_, rfl, spells_word hword (fun _ hd => List.mem_takeWhile_imp hd) (head?_dropWhile cs)⟩
    · cases h
      have hstray : Stray c :=
        ⟨hblank, Symbol.ofChar?_eq_none_iff.mp hsymbol, by simpa using hdigit, ⟨hquote, htext⟩,
          by simpa using hword⟩
      exact ⟨_, rfl, .invalid hstray⟩

/-- A scanned lexeme is white space or the spelling of its token. -/
def Fits (l : Lexeme) (rest : List Char) : Prop :=
  (l.kind = none ∧ ∀ c ∈ l.chars, Text.isWhitespace c = true) ∨
    ∃ kind, l.kind = some kind ∧ Spells rest l.chars kind

theorem fits_of_scan {c : Char} {cs rest : List Char} {l : Lexeme}
    (h : scan c cs = .ok (l, rest)) : l.Fits rest := by
  by_cases hblank : Text.isWhitespace c = true
  · rw [scan_blank hblank] at h
    cases h
    exact .inl ⟨rfl, List.forall_mem_cons.mpr ⟨hblank, fun _ hd => List.mem_takeWhile_imp hd⟩⟩
  by_cases hmark : ∀ mark ∈ commentMarks, ¬ mark <+: c :: cs
  · have hblank : Text.isWhitespace c = false := by simpa using hblank
    rw [scan_of_no_mark hmark hblank] at h
    exact .inr (spells_of_scanOther hmark hblank h)
  · unfold scan at h
    split at h
    · next cs =>
      cases h
      have hbody : '\n' ∉ cs.takeWhile (· != '\n') := fun hmem => by
        simpa using List.mem_takeWhile_imp hmem
      have hrest : ∀ d ∈ (cs.dropWhile (· != '\n')).head?, d = '\n' := fun d hd => by
        simpa using head?_dropWhile (q := (· != '\n')) cs d hd
      exact .inr ⟨_, rfl, .lineComment hbody hrest (trims_trimmed _)⟩
    · split at h
      · next body after hbody =>
        cases h
        exact .inr ⟨_, rfl, .blockComment (blockBody_eq_some_iff.mp hbody).2 (trims_trimmed body)⟩
      · cases h
    · cases h
    · next hslashes hopen hclose =>
      -- none of the marks is there
      refine absurd (fun mark hmem hprefix => ?_) hmark
      obtain ⟨more, hmore⟩ := hprefix
      simp only [commentMarks, List.mem_cons, List.not_mem_nil, or_false] at hmem
      rcases hmem with rfl | rfl | rfl
      · cases hmore
        exact hslashes _ rfl rfl
      · cases hmore
        exact hopen _ rfl rfl
      · cases hmore
        exact hclose _ rfl rfl

private theorem scan_word {c : Char} {cs rest : List Char} (hword : IsWord (c :: cs))
    (hlongest : Longest IsWord (c :: cs) rest) :
    scan c (cs ++ rest) = .ok (⟨c :: cs, some (word (c :: cs))⟩, rest) := by
  have hhead : ∀ d ∈ rest.head?, isWordPart d = false := hlongest.head fun d hd => hword.grow hd
  obtain ⟨c', cs', heq, hc, hcs⟩ := hword
  cases heq
  obtain ⟨hsymbol, hdigit, hquote, htext, hblank⟩ := wordStart_apart hc
  obtain ⟨htake, hdrop⟩ := takeWhile_append_of_head hcs hhead
  rw [scan_of_no_mark (no_mark hsymbol _) hblank, scanOther,
    Symbol.ofChar?_eq_none_iff.mpr hsymbol]
  simp [hdigit, hquote, htext, hc, htake, hdrop]

private theorem scan_numeral {c : Char} {cs rest : List Char} (hnumeral : IsNumeral (c :: cs))
    (hlongest : Longest IsNumeral (c :: cs) rest)
    (hlt : Nat.ofDigitChars 10 (c :: cs) 0 < 2 ^ 63) :
    scan c (cs ++ rest) = .ok (⟨c :: cs,
      some (.integer (Int64.ofNat (Nat.ofDigitChars 10 (c :: cs) 0)))⟩, rest) := by
  have hhead : ∀ d ∈ rest.head?, d.isDigit = false := hlongest.head fun d hd => hnumeral.grow hd
  obtain ⟨hc, hcs⟩ := List.forall_mem_cons.mp hnumeral.2
  have hsymbol : ∀ s : Symbol, s.char ≠ c := by
    rintro s rfl
    simp [symbol_not_digit] at hc
  obtain ⟨htake, hdrop⟩ := takeWhile_append_of_head hcs hhead
  have hinteger : integer (c :: cs) =
      .ok (.integer (Int64.ofNat (Nat.ofDigitChars 10 (c :: cs) 0))) := if_pos hlt
  rw [scan_of_no_mark (no_mark hsymbol _) (Text.not_isWhitespace_of_isDigit hc), scanOther,
    Symbol.ofChar?_eq_none_iff.mpr hsymbol]
  simp [hc, htake, hdrop, hinteger, Except.map]

theorem isWord_keyword (k : Keyword) : IsWord k.text.toList := by
  have hshape : ∀ k : Keyword, (k.text.toList.head?.any isWordStart &&
      k.text.toList.tail.all isWordPart) = true := by
    intro k
    cases k <;> decide
  have hk := hshape k
  cases htext : k.text.toList with
  | nil => simp [htext] at hk
  | cons c cs =>
    simp only [htext, List.head?_cons, Option.any_some, List.tail_cons, Bool.and_eq_true,
      List.all_eq_true] at hk
    exact ⟨c, cs, rfl, hk.1, hk.2⟩

/-- Where there is a spelling, the scanner finds it. -/
theorem scan_of_spells {chars rest : List Char} {kind : TokenKind} (h : Spells rest chars kind) :
    ∃ c cs, chars = c :: cs ∧ scan c (cs ++ rest) = .ok (⟨chars, some kind⟩, rest) := by
  cases h with
  | symbol s hmark =>
    refine ⟨s.char, [], rfl, ?_⟩
    rw [List.nil_append, scan_of_no_mark hmark (symbol_not_blank s), scanOther,
      Symbol.ofChar?_char]
  | keyword k hlongest =>
    have hword := isWord_keyword k
    have hkind : word k.text.toList = .keyword k := by
      rw [word, String.ofList_toList, Keyword.ofText?_text]
    obtain ⟨c, cs, htext, -⟩ := hword
    rw [htext] at hlongest hkind ⊢
    exact ⟨c, cs, rfl, hkind ▸ scan_word (htext ▸ isWord_keyword k) hlongest⟩
  | ident name hword hkeyword hlongest =>
    have hkind : word name.toList = .ident name := by
      rw [word, String.ofList_toList, Keyword.ofText?_eq_none_iff.mpr hkeyword]
    obtain ⟨c, cs, htext, -⟩ := id hword
    rw [htext] at hword hlongest hkind ⊢
    exact ⟨c, cs, rfl, hkind ▸ scan_word hword hlongest⟩
  | integer digits hnumeral hlongest hlt =>
    obtain ⟨c, cs, rfl⟩ := List.exists_cons_of_ne_nil hnumeral.1
    exact ⟨c, cs, rfl, scan_numeral hnumeral hlongest hlt⟩
  | @text raw value hinner =>
    have hbody : textBody (raw ++ '"' :: rest) = some (raw ++ ['"'], value, rest) :=
      textBody_eq_some_iff.mpr ⟨raw, rfl, rfl, hinner⟩
    refine ⟨'"', raw ++ ['"'], rfl, ?_⟩
    have hsymbol : ∀ s : Symbol, s.char ≠ '"' := by
      intro s
      cases s <;> decide
    rw [scan_of_no_mark (no_mark hsymbol _) (by decide), scanOther,
      Symbol.ofChar?_eq_none_iff.mpr hsymbol]
    simp [hbody]
  | @char raw value hinner =>
    have hbody : charBody (raw ++ '\'' :: rest) = some (raw ++ ['\''], value, rest) :=
      charBody_eq_some_iff.mpr ⟨raw, rfl, rfl, hinner⟩
    refine ⟨'\'', raw ++ ['\''], rfl, ?_⟩
    have hsymbol : ∀ s : Symbol, s.char ≠ '\'' := by
      intro s
      cases s <;> decide
    rw [scan_of_no_mark (no_mark hsymbol _) (by decide), scanOther,
      Symbol.ofChar?_eq_none_iff.mpr hsymbol]
    simp [hbody]
  | @lineComment body middle hbody hrest htrims =>
    have hpart : ∀ d ∈ body, (d != '\n') = true := fun d hd => by
      have hdiffer : d ≠ '\n' := fun heq => hbody (heq ▸ hd)
      simpa using hdiffer
    have hhead : ∀ d ∈ rest.head?, (d != '\n') = false := fun d hd => by
      simpa using hrest d hd
    obtain ⟨htake, hdrop⟩ := takeWhile_append_of_head hpart hhead
    refine ⟨'/', '/' :: body, rfl, ?_⟩
    simp only [List.cons_append, scan, htake, hdrop, comment, trims_iff.mp htrims]
  | @blockComment body middle hbody htrims =>
    have hblock : blockBody (body ++ ['*', '/'] ++ rest) = some (body, rest) :=
      blockBody_eq_some_iff.mpr ⟨by simp, hbody⟩
    refine ⟨'/', '*' :: body ++ ['*', '/'], rfl, ?_⟩
    simp only [List.cons_append, scan, hblock, comment, trims_iff.mp htrims]
  | @invalid c hstray =>
    refine ⟨c, [], rfl, ?_⟩
    rw [List.nil_append, scan_of_no_mark (no_mark hstray.noSymbol rest) hstray.notBlank,
      scanOther, Symbol.ofChar?_eq_none_iff.mpr hstray.noSymbol]
    simp [hstray.noDigit, hstray.noQuote.1, hstray.noQuote.2, hstray.noWord]

variable {keepComments : Bool}

private theorem Cut.blanks {blanks done rest : List Char} {ts : List Token}
    (hblanks : ∀ c ∈ blanks, Text.isWhitespace c = true)
    (h : Cut keepComments (done ++ blanks) rest ts) :
    Cut keepComments done (blanks ++ rest) ts := by
  induction blanks generalizing done with
  | nil => simpa using h
  | cons c blanks ih =>
    obtain ⟨hc, hcs⟩ := List.forall_mem_cons.mp hblanks
    exact .blank hc (ih hcs (by simpa using h))

/-- The tokens of a scanned text are those of a cut. -/
theorem cut_of_scanAll {fuel : Nat} {done text : List Char} {found : List (Pos × Lexeme)}
    (hfuel : text.length ≤ fuel) (h : scanAll fuel (Pos.after done) text = .ok found) :
    Cut keepComments done text (found.filterMap (token? keepComments)) := by
  induction fuel generalizing done text found with
  | zero =>
    obtain rfl := List.length_eq_zero_iff.mp (Nat.le_zero.mp hfuel)
    cases h
    exact .finished
  | succ fuel ih =>
    cases text with
    | nil =>
      cases h
      exact .finished
    | cons c cs =>
      rw [scanAll] at h
      split at h
      · cases h
      · next l rest hscan =>
        split at h
        · cases h
        · next more hmore =>
          cases h
          have hcuts := cuts_scan hscan
          have hlength : l.chars.length + rest.length = (c :: cs).length := by
            rw [← hcuts.append_eq, List.length_append]
          have hpos := hcuts.pos
          rw [Pos.advance_after] at hmore
          have hrest := ih (by omega) hmore
          rw [← hcuts.append_eq]
          obtain ⟨hkind, hblanks⟩ | ⟨kind, hkind, hspells⟩ := fits_of_scan hscan
          · have hnone : token? keepComments (Pos.after done, l) = none := by simp [token?, hkind]
            rw [List.filterMap_cons_none hnone]
            exact .blanks hblanks hrest
          · by_cases hdropped : kind.isComment = true ∧ keepComments = false
            · have hnone : token? keepComments (Pos.after done, l) = none := by
                simp [token?, hkind, hdropped.1, hdropped.2]
              rw [List.filterMap_cons_none hnone]
              exact .comment hspells hdropped.1 hdropped.2 hrest
            · have hkept : kind.isComment = true → keepComments = true := by
                intro hcomment
                by_contra hdrop
                exact hdropped ⟨hcomment, by simpa using hdrop⟩
              have hsome : token? keepComments (Pos.after done, l) =
                  some ⟨kind, Pos.after done⟩ := by
                cases hcomment : kind.isComment with
                | false => simp [token?, hkind, hcomment]
                | true => simp [token?, hkind, hkept hcomment]
              rw [List.filterMap_cons_some hsome]
              exact .lexeme hspells hkept hrest

private theorem scanAll_cons (pos : Pos) {fuel : Nat} {c : Char} {cs rest : List Char} {l : Lexeme}
    {more : List (Pos × Lexeme)} (hscan : scan c cs = .ok (l, rest))
    (hmore : scanAll fuel (pos.advance l.chars) rest = .ok more) :
    scanAll (fuel + 1) pos (c :: cs) = .ok ((pos, l) :: more) := by
  rw [scanAll, hscan]
  simp only [hmore]

private def Scans (keepComments : Bool) (done text : List Char) (ts : List Token) : Prop :=
  ∀ fuel, text.length ≤ fuel → ∃ found, scanAll fuel (Pos.after done) text = .ok found ∧
    found.filterMap (token? keepComments) = ts

private theorem scans_blank {done rest : List Char} {c : Char} {ts : List Token}
    (hc : Text.isWhitespace c = true) (h : Scans keepComments (done ++ [c]) rest ts) :
    Scans keepComments done (c :: rest) ts := by
  intro fuel hfuel
  obtain ⟨fuel, rfl⟩ : ∃ n, fuel = n + 1 := Nat.exists_eq_succ_of_ne_zero (by
    rw [List.length_cons] at hfuel
    omega)
  have hfuel : rest.length ≤ fuel := by simpa using hfuel
  have hscan := scan_blank hc rest
  by_cases hhead : ∀ d ∈ rest.head?, Text.isWhitespace d = false
  · obtain ⟨htake, hdrop⟩ := takeWhile_append_of_head (List.forall_mem_nil _) hhead
    rw [List.nil_append] at htake hdrop
    rw [htake, hdrop] at hscan
    obtain ⟨found, hfound, htokens⟩ := h fuel hfuel
    have hmore := scanAll_cons (Pos.after done) hscan (by rwa [Pos.advance_after])
    exact ⟨_, hmore, htokens⟩
  · -- the blank joins those that follow it, which are scanned as one lexeme already
    obtain ⟨d, rest, rfl⟩ : ∃ d more, rest = d :: more := by
      cases rest with
      | nil => simp at hhead
      | cons d more => exact ⟨d, more, rfl⟩
    have hd : Text.isWhitespace d = true := by simpa using hhead
    obtain ⟨found, hfound, htokens⟩ := h (fuel + 1) (by omega)
    rw [scanAll, scan_blank hd] at hfound
    split at hfound
    · cases hfound
    · next l after heq =>
      cases heq
      split at hfound
      · cases hfound
      · next more hmore =>
        cases hfound
        rw [List.takeWhile_cons_of_pos hd, List.dropWhile_cons_of_pos hd] at hscan
        rw [Pos.advance_after, List.append_assoc, List.singleton_append] at hmore
        have hall := scanAll_cons (Pos.after done) hscan (by rwa [Pos.advance_after])
        exact ⟨_, hall, htokens⟩

private theorem scans_lexeme {done chars rest : List Char} {kind : TokenKind} {ts : List Token}
    (hspells : Spells rest chars kind) (h : Scans keepComments (done ++ chars) rest ts) :
    Scans keepComments done (chars ++ rest)
      ((token? keepComments (Pos.after done, ⟨chars, some kind⟩)).toList ++ ts) := by
  intro fuel hfuel
  obtain ⟨c, cs, rfl, hscan⟩ := scan_of_spells hspells
  rw [List.cons_append, List.length_cons, List.length_append] at hfuel
  obtain ⟨fuel, rfl⟩ : ∃ n, fuel = n + 1 := Nat.exists_eq_succ_of_ne_zero (by omega)
  obtain ⟨found, hfound, htokens⟩ := h fuel (by omega)
  have hall := scanAll_cons (Pos.after done) hscan (by rwa [Pos.advance_after])
  refine ⟨_, hall, ?_⟩
  rw [← htokens]
  cases htoken : token? keepComments (Pos.after done, ⟨c :: cs, some kind⟩) with
  | none => simp [htoken]
  | some t => simp [htoken]

private theorem scans_of_cut {done text : List Char} {ts : List Token}
    (h : Cut keepComments done text ts) : Scans keepComments done text ts := by
  induction h with
  | finished =>
    intro fuel _
    exact ⟨[], by cases fuel <;> rfl, rfl⟩
  | blank hc _ ih => exact scans_blank hc ih
  | @comment done chars rest kind ts hspells hcomment hdrop _ ih =>
    have hnone : token? keepComments (Pos.after done, ⟨chars, some kind⟩) = none := by
      simp [token?, hcomment, hdrop]
    have hall := scans_lexeme hspells ih
    rwa [hnone, Option.toList_none, List.nil_append] at hall
  | @lexeme done chars rest kind ts hspells hkept _ ih =>
    have hsome : token? keepComments (Pos.after done, ⟨chars, some kind⟩) =
        some ⟨kind, Pos.after done⟩ := by
      cases hcomment : kind.isComment with
      | false => simp [token?, hcomment]
      | true => simp [token?, hkept hcomment]
    have hall := scans_lexeme hspells ih
    rwa [hsome, Option.toList_some, List.singleton_append] at hall

theorem Spells.ne_eof {rest chars : List Char} {kind : TokenKind} (h : Spells rest chars kind) :
    kind ≠ .eof := by
  cases h <;> simp

theorem Cut.ne_eof {done text : List Char} {ts : List Token} (h : Cut keepComments done text ts) :
    ∀ t ∈ ts, t.kind ≠ .eof := by
  induction h with
  | finished => simp
  | blank _ _ ih => exact ih
  | comment _ _ _ _ ih => exact ih
  | lexeme hspells _ _ ih => exact List.forall_mem_cons.mpr ⟨hspells.ne_eof, ih⟩

end Lexeme

theorem tokenize_of_cut {source : String} {keepComments : Bool} {ts : List Token}
    (h : Lexeme.Cut keepComments [] source.toList ts) :
    tokenize source keepComments = .ok (ts ++ [⟨.eof, Pos.after source.toList⟩]) := by
  have hlength : source.toList.length ≤ source.length := Nat.le_of_eq String.length_toList
  obtain ⟨found, hfound, htokens⟩ := Lexeme.scans_of_cut h source.length hlength
  have hlexemes : lexemes source = .ok found := hfound
  have hend : Pos.start.advance source.toList = Pos.after source.toList :=
    Pos.advance_after [] source.toList
  rw [tokenize, hlexemes, hend]
  simp only [htokens]

theorem exists_cut_of_tokenize {source : String} {keepComments : Bool} {tokens : List Token}
    (h : tokenize source keepComments = .ok tokens) :
    ∃ ts, tokens = ts ++ [⟨.eof, Pos.after source.toList⟩] ∧
      Lexeme.Cut keepComments [] source.toList ts := by
  have hend : Pos.start.advance source.toList = Pos.after source.toList :=
    Pos.advance_after [] source.toList
  unfold tokenize at h
  split at h
  · cases h
  · next found hfound =>
    cases h
    have hlength : source.toList.length ≤ source.length := Nat.le_of_eq String.length_toList
    exact ⟨_, by rw [hend], Lexeme.cut_of_scanAll hlength hfound⟩

/-- Lexing loses and invents nothing: the tokens of a text are those of its cut into white space,
comments and lexemes, each spelling its token at its place, and then the only end token. -/
theorem tokenize_eq_ok_iff_cut {source : String} {keepComments : Bool} {tokens : List Token} :
    tokenize source keepComments = .ok tokens ↔
      ∃ ts, tokens = ts ++ [⟨.eof, Pos.after source.toList⟩] ∧ (∀ t ∈ ts, t.kind ≠ .eof) ∧
        Lexeme.Cut keepComments [] source.toList ts := by
  constructor
  · intro h
    obtain ⟨ts, htokens, hcut⟩ := exists_cut_of_tokenize h
    exact ⟨ts, htokens, hcut.ne_eof, hcut⟩
  · rintro ⟨ts, rfl, -, hcut⟩
    exact tokenize_of_cut hcut

/-- A string with an escape and a backslash that starts none, and a comment between blanks. -/
def notedText : String := "\"\\t\\q\" //  so it is "

theorem tokenize_eq_ok_iff_cut_notedText :
    tokenize notedText true = .ok [⟨.text "\t\\q", ⟨1, 1⟩⟩, ⟨.comment "so it is", ⟨1, 8⟩⟩,
        ⟨.eof, ⟨1, 21⟩⟩] ∧
      Lexeme.Cut true [] notedText.toList
        [⟨.text "\t\\q", ⟨1, 1⟩⟩, ⟨.comment "so it is", ⟨1, 8⟩⟩] := by
  have htokens : tokenize notedText true = .ok [⟨.text "\t\\q", ⟨1, 1⟩⟩,
      ⟨.comment "so it is", ⟨1, 8⟩⟩, ⟨.eof, ⟨1, 21⟩⟩] := rfl
  obtain ⟨ts, heq, -, hcut⟩ := tokenize_eq_ok_iff_cut.mp htokens
  have hts := congrArg List.dropLast heq
  rw [List.dropLast_concat] at hts
  subst hts
  exact ⟨htokens, hcut⟩

end EdeLang
