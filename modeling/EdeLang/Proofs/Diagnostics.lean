import EdeLang.Program
import EdeLang.Proofs.Source.Boundaries
import EdeLang.Proofs.Typing.Places

/-!
# Diagnostics point into the text

Whatever is wrong with a source text, the diagnostic is at a lexeme of the text or at its end: at
the lexeme that is none if the text cannot be cut, at the token that cannot be there or at the end
if it cannot be read, and at a token if it cannot be checked.
-/

namespace EdeLang

open Lexeme

/-- The diagnostic with which reading and checking a text fails. -/
def Module.fault? (name source : String) : Option Diagnostic :=
  match Module.checked name source with
  | .error (.read (.diagnostic d)) | .error (.check (.diagnostic d)) => some d
  | _ => none

/-- A token of the text starts at the place. -/
def Lexeme.TokenAt (text : List Char) (pos : Pos) : Prop := ∃ t, Stands text t ∧ t.pos = pos

/-- The text starts at the place with the lexeme that the error is about, with a token, or is at its
end there. -/
def Diagnostic.PointsInto (text : List Char) (d : Diagnostic) : Prop :=
  match d.error with
  | .lex e => ∃ done rest, Front text done rest ∧ Offends e rest ∧ d.pos = Pos.after done
  | .parse _ => TokenAt text d.pos ∨ Front text text [] ∧ d.pos = Pos.after text
  | .type _ => TokenAt text d.pos

variable {name source : String} {tokens : List Token} {d : Diagnostic}

theorem Diagnostic.pointsInto_of_lexemes (h : tokenize source false = .error d) :
    d.PointsInto source.toList := by
  unfold tokenize at h
  split at h
  · next hlexemes =>
    cases h
    obtain ⟨e, done, rest, hfront, hoffends, rfl⟩ := offends_of_scanAll .start hlexemes
    exact ⟨done, rest, hfront, hoffends, rfl⟩
  · cases h

theorem Lexeme.tokenAt_of_tokenPlace (h : tokenize source false = .ok tokens) {pos : Pos}
    (hpos : TokenPlace tokens pos) : TokenAt source.toList pos := by
  obtain ⟨ts, rfl, hcut⟩ := exists_cut_of_tokenize h
  obtain ⟨t, ht, hkind, rfl⟩ := hpos
  rcases List.mem_append.mp ht with ht | hend
  · exact ⟨t, stands_of_cut hcut .start t ht, rfl⟩
  · rw [List.mem_singleton] at hend
    exact absurd (congrArg Token.kind hend) hkind

theorem Diagnostic.pointsInto_of_tokens (h : tokenize source false = .ok tokens)
    (hread : Module.ofTokens name tokens = .error (.diagnostic d)) :
    d.PointsInto source.toList := by
  obtain ⟨e, t, ht, rfl⟩ := Module.diagnostic_of_tokens hread
  by_cases hkind : t.kind = .eof
  · obtain ⟨ts, rfl, hcut⟩ := exists_cut_of_tokenize h
    rcases List.mem_append.mp ht with ht | hend
    · exact absurd hkind (hcut.ne_eof t ht)
    · rw [List.mem_singleton] at hend
      exact .inr ⟨front_of_cut hcut .start, congrArg Token.pos hend⟩
  · exact .inl (tokenAt_of_tokenPlace h ⟨t, ht, hkind, rfl⟩)

theorem Module.placed_of_source {m : Module} (h : Module.ofSource name source = .ok m) :
    Node.Placed (TokenAt source.toList) m.nodes := by
  unfold Module.ofSource at h
  split at h
  · cases h
  · next tokens htokens =>
    intro n hn pos hpos
    exact tokenAt_of_tokenPlace htokens (Module.placed_of_tokens h n hn pos hpos)

theorem Diagnostic.pointsInto_of_fault? (h : Module.fault? name source = some d) :
    d.PointsInto source.toList := by
  unfold Module.fault? at h
  split at h
  · next d' hchecked =>
    cases h
    unfold Module.checked at hchecked
    split at hchecked
    · next stop hread =>
      cases hchecked
      unfold Module.ofSource at hread
      split at hread
      · next htokens =>
        cases hread
        exact pointsInto_of_lexemes htokens
      · next tokens htokens => exact pointsInto_of_tokens htokens hread
    · split at hchecked <;> cases hchecked
  · next d' hchecked =>
    cases h
    unfold Module.checked at hchecked
    split at hchecked
    · cases hchecked
    · next m hread =>
      have hpoints := Module.check_points (Module.placed_of_source hread)
      split at hchecked
      · cases hchecked
      · next hcheck =>
        cases hchecked
        rw [hcheck] at hpoints
        obtain ⟨e, pos, hpos, rfl⟩ := hpoints.2 _ rfl
        exact hpos
  · cases h

/-- The place of a diagnostic is in front of a character that ends no line, or at the end. -/
theorem Diagnostic.PointsInto.boundary {text : List Char} (h : d.PointsInto text) :
    ∃ done rest, done ++ rest = text ∧ (∀ c ∈ rest.head?, c ≠ '\n') ∧ d.pos = Pos.after done := by
  have htoken : TokenAt text d.pos → ∃ done rest, done ++ rest = text ∧
      (∀ c ∈ rest.head?, c ≠ '\n') ∧ d.pos = Pos.after done := by
    rintro ⟨t, ⟨-, done, chars, rest, hfront, hspells, hdone⟩, hpos⟩
    exact ⟨done, chars ++ rest, hfront.append_eq, hspells.head_ne, hpos ▸ hdone⟩
  unfold PointsInto at h
  split at h
  · obtain ⟨done, rest, hfront, hoffends, hpos⟩ := h
    exact ⟨done, rest, hfront.append_eq, hoffends.head_ne, hpos⟩
  · rcases h with h | ⟨-, hpos⟩
    · exact htoken h
    · exact ⟨text, [], List.append_nil text, by simp, hpos⟩
  · exact htoken h

/-- Every diagnostic points into the text: a lexical error at the lexeme that is none, a parse error
at a token or the end, and a type error at a token. So its line is one of the text or the one after,
and its caret is under the line that is shown or right after it. The nodes of a module that was read
are at tokens. -/
theorem frontEnd_places (name source : String) :
    (∀ d, Module.fault? name source = some d → d.PointsInto source.toList ∧
      1 ≤ d.pos.line ∧ d.pos.line ≤ (Text.lines source).length + 1 ∧
      1 ≤ d.pos.col ∧ d.pos.col - 1 ≤ (d.shownLine source).length) ∧
    ∀ m, Module.ofSource name source = .ok m →
      ∀ n ∈ m.nodes, ∀ pos ∈ n.places, TokenAt source.toList pos := by
  refine ⟨fun d hd => ?_, fun m hm => Module.placed_of_source hm⟩
  have hpoints := Diagnostic.pointsInto_of_fault? hd
  obtain ⟨done, rest, happend, hhead, hpos⟩ := hpoints.boundary
  obtain ⟨hline, hcol⟩ := Diagnostic.caret_within happend hhead hpos
  have hstart : 1 ≤ d.pos.line ∧ 1 ≤ d.pos.col := by
    rw [hpos]
    exact ⟨Nat.le_add_right 1 _, Nat.le_add_right 1 _⟩
  exact ⟨hpoints, hstart.1, hline, hstart.2, hcol⟩

/-- A string that is not closed, an expression that is missing, and a name that is not known. -/
def faultTexts : List (String × Pos) :=
  [("a = 1;\r\n \"b;\n", ⟨2, 2⟩), ("a = ", ⟨1, 5⟩), ("\n\ta;", ⟨2, 2⟩)]

theorem frontEnd_places_faultTexts :
    (∀ text ∈ faultTexts, ∃ d, Module.fault? "fault" text.1 = some d ∧ d.pos = text.2 ∧
      d.PointsInto text.1.toList ∧ d.pos.line ≤ (Text.lines text.1).length + 1 ∧
      d.pos.col - 1 ≤ (d.shownLine text.1).length) ∧
    ∃ m, Module.ofSource "fault" "\n\ta;" = .ok m ∧
      ∀ n ∈ m.nodes, ∀ pos ∈ n.places, TokenAt "\n\ta;".toList pos := by
  constructor
  · intro text htext
    have hfault : ∀ text ∈ faultTexts,
        (Module.fault? "fault" text.1).any (fun d => d.pos == text.2) = true := by
      decide +kernel
    have hpos := hfault text htext
    cases hd : Module.fault? "fault" text.1 with
    | none =>
      rw [hd] at hpos
      cases hpos
    | some d =>
      rw [hd] at hpos
      obtain ⟨hpoints, -, hline, -, hcol⟩ := (frontEnd_places "fault" text.1).1 d hd
      exact ⟨d, rfl, beq_iff_eq.mp hpos, hpoints, hline, hcol⟩
  · have hread : (Module.ofSource "fault" "\n\ta;").toOption.isSome = true := by decide +kernel
    cases hm : Module.ofSource "fault" "\n\ta;" with
    | error stop =>
      rw [hm] at hread
      cases hread
    | ok m => exact ⟨m, rfl, (frontEnd_places "fault" "\n\ta;").2 m hm⟩

end EdeLang
