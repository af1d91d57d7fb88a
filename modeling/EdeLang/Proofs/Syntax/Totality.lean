import EdeLang.Proofs.Syntax.Forks

/-!
# Reading comes to an end

The tokens of a source text are a stream, and reading a stream comes to an end. The end of the
stream stops every rule: no rule but the last of a module takes it, so a module was read only if
every token was taken, and the end is still there wherever a diagnostic is given. More fuel than
there is for the tokens of the stream changes nothing.
-/

namespace EdeLang

open Cursor

/-- What a parser answers, whatever tokens it leaves. -/
def Cursor.answer {α : Type} : EStateM.Result Stop Cursor α → Except Stop α
  | .ok a _ => .ok a
  | .error stop _ => .error stop

namespace Grammar

open Parse

variable {c : Cursor} {fuel fuel' : Nat}

theorem fuelFor_suffices {n : Nat} (h : fuelFor n ≤ fuel) : 3 * n + 3 ≤ fuel := by
  unfold fuelFor at h
  omega

theorem endsOnce_after_parts (hc : c.Clear) (hfuel : fuelFor c.tokens.length ≤ fuel) :
    EndsOnce (after (parts fuel c)).tokens := by
  have hsuffices := fuelFor_suffices hfuel
  have hkept := keeps_parts fuel c hc
  rcases agrees_parts hsuffices hsuffices c c ⟨rfl, rfl⟩ (ready_of_clear hc) with
    ⟨r, c', -, hread, -, -, -⟩ | ⟨d, c', -, hread, -⟩
  · rw [hread] at hkept ⊢
    exact hkept.endsOnce
  · rw [hread] at hkept ⊢
    exact hkept.1.endsOnce

/-- Fuel that suffices gives the same answer as any other that does. -/
theorem answer_module_of_fuel (hc : c.Clear) (hfuel : fuelFor c.tokens.length ≤ fuel)
    (hfuel' : fuelFor c.tokens.length ≤ fuel') (name : String) :
    answer (module fuel name c) = answer (module fuel' name c) := by
  rcases agrees_module (fuelFor_suffices hfuel) (fuelFor_suffices hfuel') name c c ⟨rfl, rfl⟩
    (ready_of_clear hc) with ⟨m, c', d', hread, hread', -, -⟩ | ⟨d, c', d', hread, hread'⟩
  · rw [hread, hread']
    rfl
  · rw [hread, hread']
    rfl

end Grammar

/-- Every stream is read to a module, when every token was taken, or to a diagnostic, when its end
is left. -/
theorem Cursor.parseModule_ends {tokens : List Token} (h : EndsOnce tokens) (name : String) :
    (∃ m c', parseModule name ⟨tokens, []⟩ = .ok m c' ∧ c'.tokens = []) ∨
    ∃ d c', parseModule name ⟨tokens, []⟩ = .error (.diagnostic d) c' ∧ EndsOnce c'.tokens ∧
      c'.tokens <:+ tokens := by
  rcases parseModule_settles (clear_start h) name with hread | ⟨d, c', hread, hleft, -⟩
  · exact .inl hread
  · have hleads := leads_parseModule ⟨tokens, []⟩ name
    rw [hread] at hleads
    exact .inr ⟨d, c', hread, hleft.endsOnce, hleads.tokens_le⟩

theorem Module.ofTokens_eq_answer {tokens : List Token} (h : EndsOnce tokens) (name : String) :
    Module.ofTokens name tokens = answer (parseModule name ⟨tokens, []⟩) := by
  rw [Module.ofTokens, ofTokens_of_endsOnce h]
  dsimp only
  cases parseModule name ⟨tokens, []⟩ with
  | ok m c => rfl
  | error stop c => rfl

theorem Module.ofSource_ends (name source : String) :
    (∃ m, Module.ofSource name source = .ok m) ∨
    ∃ d, Module.ofSource name source = .error (.diagnostic d) := by
  rw [Module.ofSource]
  cases htokens : tokenize source false with
  | error d => exact .inr ⟨d, rfl⟩
  | ok tokens =>
    have hends := endsOnce_of_tokenize htokens
    have hanswer := Module.ofTokens_eq_answer hends name
    rcases parseModule_ends hends name with ⟨m, c', hread, -⟩ | ⟨d, c', hread, -, -⟩
    · rw [hread] at hanswer
      exact .inl ⟨m, hanswer⟩
    · rw [hread] at hanswer
      exact .inr ⟨d, hanswer⟩

/-- The tokens of a text are a stream, and reading a stream ends: with a module when every token was
taken, or with a diagnostic when its end is left. More fuel does not change the answer, and the
rules in front of the last leave the end. -/
theorem frontEnd_total :
    (∀ source keepComments tokens, tokenize source keepComments = .ok tokens →
      ∃ c, ofTokens tokens = .ok c) ∧
    (∀ name source, (∃ m, Module.ofSource name source = .ok m) ∨
      ∃ d, Module.ofSource name source = .error (.diagnostic d)) ∧
    ∀ name tokens c, ofTokens tokens = .ok c →
      ((∃ m c', c.parseModule name = .ok m c' ∧ c'.tokens = []) ∨
        ∃ d c', c.parseModule name = .error (.diagnostic d) c' ∧ EndsOnce c'.tokens ∧
          c'.tokens <:+ tokens) ∧
      ∀ fuel, Grammar.fuelFor tokens.length ≤ fuel →
        answer (Grammar.module fuel name c) = answer (c.parseModule name) ∧
        EndsOnce (after (Grammar.parts fuel c)).tokens := by
  refine ⟨fun source keepComments tokens htokens => ?_, Module.ofSource_ends, ?_⟩
  · exact ⟨_, ofTokens_of_endsOnce (endsOnce_of_tokenize htokens)⟩
  · intro name tokens c hc
    obtain ⟨hends, rfl⟩ := ofTokens_eq_ok_iff.mp hc
    have hclear := clear_start hends
    refine ⟨parseModule_ends hends name, fun fuel hfuel => ⟨?_, ?_⟩⟩
    · exact Grammar.answer_module_of_fuel hclear hfuel (Nat.le_refl _) name
    · exact Grammar.endsOnce_after_parts hclear hfuel

/-- Two blocks, one of which is not closed. -/
def openTokens : List Token :=
  [⟨.symbol .lcurly, ⟨1, 1⟩⟩, ⟨.symbol .lcurly, ⟨1, 3⟩⟩, ⟨.symbol .rcurly, ⟨1, 5⟩⟩, ⟨.eof, ⟨1, 6⟩⟩]

theorem frontEnd_total_openBlock : ∃ c d c', ofTokens openTokens = .ok c ∧
    c.parseModule "open" = .error (.diagnostic d) c' ∧ EndsOnce c'.tokens ∧
      c'.tokens <:+ openTokens := by
  have hstream : ofTokens openTokens = .ok ⟨openTokens, []⟩ := rfl
  obtain ⟨d, c', hread⟩ : ∃ d c', parseModule "open" ⟨openTokens, []⟩ =
      .error (.diagnostic d) c' := ⟨_, _, rfl⟩
  rcases (frontEnd_total.2.2 "open" openTokens _ hstream).1 with
    ⟨m, c'', hmodule, -⟩ | ⟨d', c'', hread', hends, hleft⟩
  · cases hread.symm.trans hmodule
  · exact ⟨_, d', c'', hstream, hread', hends, hleft⟩

end EdeLang
