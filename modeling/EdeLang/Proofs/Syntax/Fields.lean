import EdeLang.Proofs.Typing.Checked
import EdeLang.Syntax.Grammar

/-!
# Fields of parsed objects

The parser refuses a definition that gives two fields one name, so the objects of a module that
was read from a text have fields of different names.
-/

namespace EdeLang

/-- Every result of the parser has the property. -/
def Parse.Yields {α : Type} (p : Parse α) (Q : α → Prop) : Prop :=
  ∀ c a c', p c = .ok a c' → Q a

namespace Parse

variable {α β : Type} {p : Parse α} {f : α → Parse β} {P : α → Prop} {Q : β → Prop}

theorem yields_true (p : Parse α) : Yields p fun _ => True := fun _ _ _ _ => trivial

theorem yields_pure {a : α} (h : P a) : Yields (pure a : Parse α) P := by
  intro c b c' hb
  obtain ⟨rfl, rfl⟩ : a = b ∧ c = c' := by simpa [pure, EStateM.pure] using hb
  exact h

theorem yields_throw (stop : Stop) : Yields (throw stop : Parse α) P := by
  intro c b c' hb
  have herror : (throw stop : Parse α) c = .error stop c := rfl
  simp [herror] at hb

theorem Yields.bind (hp : Yields p P) (hf : ∀ a, P a → Yields (f a) Q) : Yields (p >>= f) Q := by
  intro c b c' hb
  simp only [Bind.bind, EStateM.bind] at hb
  cases hpc : p c with
  | error e c₁ => simp [hpc] at hb
  | ok a c₁ =>
    simp only [hpc] at hb
    exact hf a (hp c a c₁ hpc) c₁ b c' hb

theorem yields_bind (hf : ∀ a, Yields (f a) Q) : Yields (p >>= f) Q :=
  (yields_true p).bind fun a _ => hf a

end Parse

namespace Grammar

open Parse

private theorem nodup_of_duplicate? : ∀ (items : List (Item TypeExpr)) {seen : List String},
    duplicate? seen items = none →
      (items.map Item.name).Nodup ∧ ∀ item ∈ items, item.name ∉ seen
  | [], _, _ => by simp
  | item :: items, seen, h => by
    rw [duplicate?] at h
    split at h
    · simp at h
    · rename_i hseen
      obtain ⟨hnodup, hfresh⟩ := nodup_of_duplicate? items h
      refine ⟨?_, ?_⟩
      · rw [List.map_cons, List.nodup_cons]
        refine ⟨fun hmem => ?_, hnodup⟩
        obtain ⟨other, hother, hname⟩ := List.mem_map.mp hmem
        exact hfresh other hother (by simp [hname])
      · refine List.forall_mem_cons.mpr ⟨by simpa using hseen, fun other hother hmem => ?_⟩
        exact hfresh other hother (List.mem_cons_of_mem _ hmem)

theorem yields_distinct (items : List (Item TypeExpr)) :
    Yields (distinct items) fun _ => (items.map Item.name).Nodup := by
  unfold distinct
  split
  · exact yields_throw _
  · rename_i hnone
    exact yields_pure (nodup_of_duplicate? items hnone).1

theorem yields_definition (fuel : Nat) : Yields (definition fuel) Def.DistinctFields := by
  unfold definition
  refine yields_bind fun t => yields_bind fun object => ?_
  split
  · refine yields_bind fun ⟨name, _⟩ => yields_bind fun _ => yields_bind fun fields =>
      yields_bind fun _ => (yields_distinct fields).bind fun _ hnodup => ?_
    exact yields_pure hnodup
  · refine yields_bind fun func => ?_
    split
    · refine yields_bind fun ⟨name, namePos⟩ => yields_bind fun _ => yields_bind fun params =>
        yields_bind fun _ => yields_bind fun _ => yields_bind fun ret => yields_bind fun body => ?_
      exact yields_pure trivial
    · exact yields_bind fun d => yields_throw _

theorem yields_parts : ∀ fuel : Nat,
    Yields (parts fuel) fun (defs, _) => ∀ d ∈ defs, d.DistinctFields
  | 0 => yields_throw _
  | fuel + 1 => by
    unfold parts
    refine yields_bind fun ended => ?_
    split
    · exact yields_pure (by simp)
    · refine yields_bind fun defining => ?_
      split
      · refine (yields_definition fuel).bind fun d hd => (yields_parts fuel).bind ?_
        rintro ⟨defs, stmts⟩ hdefs
        exact yields_pure (List.forall_mem_cons.mpr ⟨hd, hdefs⟩)
      · refine yields_bind fun s => (yields_parts fuel).bind ?_
        rintro ⟨defs, stmts⟩ hdefs
        exact yields_pure hdefs

theorem yields_module (fuel : Nat) (name : String) :
    Yields (module fuel name) Module.DistinctFields := by
  unfold module
  refine (yields_parts fuel).bind ?_
  rintro ⟨defs, stmts⟩ hdefs
  exact yields_bind fun _ => yields_pure hdefs

end Grammar

/-- The objects of a module that was read from a text have fields of different names. -/
theorem Module.distinctFields_of_source {name source : String} {m : Module}
    (h : Module.ofSource name source = .ok m) : m.DistinctFields := by
  unfold Module.ofSource at h
  split at h
  · simp at h
  · unfold Module.ofTokens at h
    split at h
    · simp at h
    · rename_i c _
      split at h
      · rename_i m' c' hparse
        obtain rfl : m' = m := by simpa using h
        exact Grammar.yields_module _ name c m' c' hparse
      · simp at h

end EdeLang
