import EdeLang.Proofs.Source.Spelling

/-!
# Boundaries of lexemes

A text can be done up to the start of a lexeme, or up to its end. Tokens stand at such boundaries,
and so does the lexeme that a lexical error is about. The place of a boundary is on a line of the
text or right after the last one, and in or right after the characters of that line.
-/

namespace EdeLang

namespace Lexeme

/-- The text is done up to a boundary: white space and whole lexemes, in front of the rest. -/
inductive Front (text : List Char) : List Char → List Char → Prop where
  | start : Front text [] text
  | blank {done rest : List Char} {c : Char} : Front text done (c :: rest) →
      Text.isWhitespace c = true → Front text (done ++ [c]) rest
  | lexeme {done chars rest : List Char} {kind : TokenKind} : Front text done (chars ++ rest) →
      Spells rest chars kind → Front text (done ++ chars) rest

/-- The text starts with what should be a lexeme and is none. -/
inductive Offends : LexError → List Char → Prop where
  | integer {digits rest : List Char} : IsNumeral digits → Longest IsNumeral digits rest →
      2 ^ 63 ≤ Nat.ofDigitChars 10 digits 0 →
      Offends (.invalidInteger (String.ofList digits)) (digits ++ rest)
  | text {cs : List Char} : (∀ raw value rest, Unescapes raw value → cs ≠ raw ++ '"' :: rest) →
      Offends .unterminatedText ('"' :: cs)
  | char {cs : List Char} :
      (∀ raw value rest, UnescapesChar raw value → cs ≠ raw ++ '\'' :: rest) →
      Offends .invalidChar ('\'' :: cs)
  | openComment {cs : List Char} : ¬ ['*', '/'] <:+: cs → Offends .invalidComment ('/' :: '*' :: cs)
  | closeComment {cs : List Char} : Offends .invalidComment ('*' :: '/' :: cs)

theorem Front.append_eq {text done rest : List Char} (h : Front text done rest) :
    done ++ rest = text := by
  induction h with
  | start => rfl
  | blank _ _ ih => simpa using ih
  | lexeme _ _ ih => simpa using ih

theorem Front.blanks {text done blanks rest : List Char} (h : Front text done (blanks ++ rest))
    (hblanks : ∀ c ∈ blanks, Text.isWhitespace c = true) : Front text (done ++ blanks) rest := by
  induction blanks generalizing done with
  | nil => simpa using h
  | cons c blanks ih =>
    obtain ⟨hc, hcs⟩ := List.forall_mem_cons.mp hblanks
    simpa using ih (h.blank hc) hcs

/-- The token is spelled at its place in the text, and is no comment. -/
def Stands (text : List Char) (t : Token) : Prop :=
  t.kind.isComment = false ∧ ∃ done chars rest, Front text done (chars ++ rest) ∧
    Spells rest chars t.kind ∧ t.pos = Pos.after done

theorem stands_of_cut {text done rest : List Char} {ts : List Token} (hcut : Cut false done rest ts)
    (hfront : Front text done rest) : ∀ t ∈ ts, Stands text t := by
  induction hcut with
  | finished => simp
  | blank hc _ ih => exact ih (hfront.blank hc)
  | comment hspells _ _ _ ih => exact ih (hfront.lexeme hspells)
  | @lexeme done chars rest kind ts hspells hkept _ ih =>
    have hplain : kind.isComment = false := by
      cases hcomment : kind.isComment with
      | false => rfl
      | true => exact absurd (hkept hcomment) (by decide)
    exact List.forall_mem_cons.mpr
      ⟨⟨hplain, done, chars, rest, hfront, hspells, rfl⟩, ih (hfront.lexeme hspells)⟩

theorem front_of_cut {text done rest : List Char} {ts : List Token} {keepComments : Bool}
    (hcut : Cut keepComments done rest ts) (hfront : Front text done rest) :
    Front text text [] := by
  induction hcut with
  | finished =>
    have happend := hfront.append_eq
    rw [List.append_nil] at happend
    exact happend ▸ hfront
  | blank hc _ ih => exact ih (hfront.blank hc)
  | comment hspells _ _ _ ih => exact ih (hfront.lexeme hspells)
  | lexeme hspells _ _ ih => exact ih (hfront.lexeme hspells)

private theorem offends_of_scanOther {c : Char} {cs : List Char} {e : LexError}
    (h : scanOther c cs = .error e) : Offends e (c :: cs) := by
  unfold scanOther at h
  split at h
  · cases h
  · split_ifs at h with hdigit hquote htext hword
    · have hnumeral : IsNumeral (c :: cs.takeWhile Char.isDigit) :=
        ⟨by simp, List.forall_mem_cons.mpr ⟨hdigit, fun _ hd => List.mem_takeWhile_imp hd⟩⟩
      have hlongest := longest_numeral hnumeral (head?_dropWhile cs)
      have hwhole : c :: cs = (c :: cs.takeWhile Char.isDigit) ++ cs.dropWhile Char.isDigit := by
        simp
      dsimp only [integer] at h
      split_ifs at h with hlt
      · cases h
      · have herror : .invalidInteger (String.ofList (c :: cs.takeWhile Char.isDigit)) = e :=
          Except.error.inj h
        rw [hwhole, ← herror]
        exact .integer hnumeral hlongest (Nat.le_of_not_lt hlt)
    · subst hquote
      split at h
      · cases h
      · next hbody =>
        cases h
        refine .char fun raw value rest hraw hcs => ?_
        rw [charBody_eq_some_iff.mpr ⟨raw, rfl, hcs, hraw⟩] at hbody
        cases hbody
    · subst htext
      split at h
      · cases h
      · next hbody =>
        cases h
        refine .text fun raw value rest hraw hcs => ?_
        rw [textBody_eq_some_iff.mpr ⟨raw, rfl, hcs, hraw⟩] at hbody
        cases hbody

private theorem exists_blockBody {cs : List Char} (h : ['*', '/'] <:+: cs) :
    blockBody cs ≠ none := by
  induction cs using blockBody.induct with
  | case1 => simp at h
  | case2 after => simp [blockBody]
  | case3 c cs hmark ih =>
    obtain ⟨before, after, heq⟩ := h
    cases before with
    | nil =>
      cases heq
      exact absurd rfl (hmark _ rfl)
    | cons d before =>
      cases heq
      have hrest := ih ⟨before, after, rfl⟩
      rw [blockBody]
      · simpa using hrest
      · exact hmark

/-- Where the scanner fails, the text has no lexeme of the kind that it starts. -/
theorem offends_of_scan {c : Char} {cs : List Char} {e : LexError} (h : scan c cs = .error e) :
    Offends e (c :: cs) := by
  unfold scan at h
  split at h
  · cases h
  · split at h
    · cases h
    · next cs hbody =>
      cases h
      exact .openComment fun hmark => exists_blockBody hmark hbody
  · cases h
    exact .closeComment
  · split_ifs at h
    exact offends_of_scanOther h

/-- Scanning fails at the boundary in front of the lexeme that the error is about. -/
theorem offends_of_scanAll {text : List Char} {fuel : Nat} {done rest : List Char} {d : Diagnostic}
    (hfront : Front text done rest) (h : scanAll fuel (Pos.after done) rest = .error d) :
    ∃ e before after, Front text before after ∧ Offends e after ∧ d = e.at (Pos.after before) := by
  induction fuel generalizing done rest with
  | zero => cases rest <;> cases h
  | succ fuel ih =>
    cases rest with
    | nil => cases h
    | cons c cs =>
      rw [scanAll] at h
      split at h
      · next e hscan =>
        cases h
        exact ⟨e, done, c :: cs, hfront, offends_of_scan hscan, rfl⟩
      · next l more hscan =>
        have hwhole := (cuts_scan hscan).append_eq
        rw [← hwhole] at hfront
        have hnext : Front text (done ++ l.chars) more := by
          rcases fits_of_scan hscan with ⟨-, hblanks⟩ | ⟨kind, -, hspells⟩
          · exact hfront.blanks hblanks
          · exact hfront.lexeme hspells
        split at h
        · next d' hmore =>
          cases h
          rw [Pos.advance_after] at hmore
          exact ih hnext hmore
        · cases h

theorem Spells.head_ne {rest chars : List Char} {kind : TokenKind} (h : Spells rest chars kind) :
    ∀ c ∈ (chars ++ rest).head?, c ≠ '\n' := by
  obtain ⟨c, cs, rfl, hscan⟩ := scan_of_spells h
  intro d hd
  obtain rfl : c = d := by simpa using hd
  rintro rfl
  simp [scan, Text.isWhitespace] at hscan

theorem Offends.head_ne {e : LexError} {rest : List Char} (h : Offends e rest) :
    ∀ c ∈ rest.head?, c ≠ '\n' := by
  cases h with
  | @integer digits rest hnumeral hlongest hlarge =>
    obtain ⟨c, cs, rfl⟩ := List.exists_cons_of_ne_nil hnumeral.1
    have hdigit := hnumeral.2 c List.mem_cons_self
    intro d hd
    obtain rfl : c = d := by simpa using hd
    rintro rfl
    exact absurd hdigit (by decide)
  | _ => simp

end Lexeme

namespace Text

theorem length_withoutReturn (line : List Char) :
    line.length ≤ (withoutReturn line).length + 1 := by
  unfold withoutReturn
  split
  · next rest hline =>
    have hlength : line.length = rest.length + 1 := by
      rw [← List.length_reverse, hline, List.length_cons]
    simp [hlength]
  · omega

theorem length_le_linesFrom (line cs : List Char) :
    line.length ≤ ((linesFrom line cs).getD 0 []).length + 1 := by
  induction cs generalizing line with
  | nil =>
    cases line with
    | nil => simp
    | cons c line => simp [linesFrom]
  | cons c cs ih =>
    rw [linesFrom]
    split
    · have hline := length_withoutReturn line.reverse
      simpa using hline
    · have hmore := ih (c :: line)
      rw [List.length_cons] at hmore
      omega

/-- In front of a character that does not end the line, all that has been read of it is in it. -/
theorem length_le_linesFrom_of_ne (line : List Char) {rest : List Char}
    (hrest : ∀ c ∈ rest.head?, c ≠ '\n') :
    line.length ≤ ((linesFrom line rest).getD 0 []).length := by
  cases rest with
  | nil => cases line <;> simp [linesFrom]
  | cons c rest =>
    have hc : c ≠ '\n' := hrest c (by simp)
    have hmore := length_le_linesFrom (c :: line) rest
    rw [List.length_cons] at hmore
    rw [linesFrom, if_neg hc]
    omega

end Text

namespace Pos

theorem line_le_advance (p : Pos) (cs : List Char) : p.line ≤ (p.advance cs).line := by
  induction cs generalizing p with
  | nil => exact Nat.le_refl _
  | cons c cs ih =>
    have hrest := ih (p.next c)
    have hnext : p.line ≤ (p.next c).line := by
      unfold next
      split <;> simp
    exact Nat.le_trans hnext hrest

/-- A place in front of a character that ends no line is on a line, or after all, and in that line,
or after its characters. -/
theorem advance_within {rest : List Char} (hrest : ∀ c ∈ rest.head?, c ≠ '\n') (done : List Char)
    (p : Pos) (line : List Char) (hcol : p.col = line.length + 1) :
    (p.advance done).line ≤ p.line + (Text.linesFrom line (done ++ rest)).length ∧
      (p.advance done).col ≤ ((Text.linesFrom line (done ++ rest)).getD
        ((p.advance done).line - p.line) []).length + 1 := by
  induction done generalizing p line with
  | nil =>
    have hline := Text.length_le_linesFrom_of_ne line hrest
    have hsame : p.advance [] = p := rfl
    rw [hsame, Nat.sub_self, List.nil_append, hcol]
    omega
  | cons c done ih =>
    have hstep : p.advance (c :: done) = (p.next c).advance done := rfl
    rw [hstep, List.cons_append, Text.linesFrom]
    by_cases hc : c = '\n'
    · have hnext : p.next c = ⟨p.line + 1, 1⟩ := if_pos hc
      have hlater : p.line + 1 ≤ _ := line_le_advance ⟨p.line + 1, 1⟩ done
      obtain ⟨hlines, hcols⟩ := ih ⟨p.line + 1, 1⟩ [] rfl
      dsimp only at hlines hcols
      rw [if_pos hc, hnext, List.length_cons]
      refine ⟨by omega, ?_⟩
      obtain ⟨k, hk⟩ : ∃ k, (Pos.advance ⟨p.line + 1, 1⟩ done).line = p.line + 1 + k :=
        Nat.exists_eq_add_of_le hlater
      rw [hk] at hcols ⊢
      have hindex : p.line + 1 + k - p.line = k + 1 := by omega
      rw [Nat.add_sub_cancel_left] at hcols
      rwa [hindex, List.getD_cons_succ]
    · have hnext : p.next c = ⟨p.line, p.col + 1⟩ := if_neg hc
      rw [if_neg hc, hnext]
      exact ih ⟨p.line, p.col + 1⟩ (c :: line) (by simp [hcol])

end Pos

/-- A diagnostic in front of a character that ends no line shows the line it is on, and its caret is
under that line or right after it. -/
theorem Diagnostic.caret_within {source : String} {done rest : List Char} {d : Diagnostic}
    (hsource : done ++ rest = source.toList) (hrest : ∀ c ∈ rest.head?, c ≠ '\n')
    (hpos : d.pos = Pos.after done) :
    d.pos.line ≤ (Text.lines source).length + 1 ∧ d.pos.col - 1 ≤ (d.shownLine source).length := by
  have hstart : Pos.start.advance done = Pos.after done := Pos.advance_after [] done
  obtain ⟨hline, hcol⟩ := Pos.advance_within hrest done Pos.start [] rfl
  rw [hstart, ← hpos, hsource] at hline hcol
  have hshown : d.shownLine source =
      String.ofList ((Text.linesFrom [] source.toList).getD (d.pos.line - 1) []) := by
    rw [shownLine, Text.lines, List.getD_eq_getElem?_getD, List.getElem?_map,
      List.getD_eq_getElem?_getD]
    cases (Text.linesFrom [] source.toList)[d.pos.line - 1]? <;> rfl
  rw [hshown, String.length_ofList, Text.lines, List.length_map]
  exact ⟨by simpa [Pos.start, Nat.add_comm] using hline, by simpa [Pos.start] using hcol⟩

end EdeLang
