import EdeLang.Typing.Ty
import Mathlib.Data.List.Forall2

/-!
# Equality of types

Types are equal just if they are identical once the names of the parameters of functions are
erased in them, at any depth. So equality is an equivalence, and all other names count, as does
the order of parts.
-/

namespace EdeLang.Ty

mutual

/-- The type with the names of all parameters of functions in it erased. -/
def erased : Ty → Ty
  | .prim p => .prim p
  | .array elem => .array (erased elem)
  | .tuple elems => .tuple (erasedAll elems)
  | .object name fields => .object name (erasedFields fields)
  | .func params ret => .func (erasedParams params) (erased ret)
termination_by structural t => t

def erasedAll : List Ty → List Ty
  | [] => []
  | t :: ts => erased t :: erasedAll ts
termination_by structural ts => ts

/-- The fields of an object keep their names. -/
def erasedFields : List (String × Ty) → List (String × Ty)
  | [] => []
  | (name, t) :: fields => (name, erased t) :: erasedFields fields
termination_by structural fields => fields

/-- The parameters of a function lose theirs. -/
def erasedParams : List (String × Ty) → List (String × Ty)
  | [] => []
  | (_, t) :: params => ("", erased t) :: erasedParams params
termination_by structural params => params

end

mutual

/-- Types are the same just if erasure makes them identical. -/
theorem same_iff (a b : Ty) : same a b = true ↔ a.erased = b.erased := by
  cases a with
  | prim p => cases b <;> simp [same, erased]
  | array a =>
    cases b with
    | array b => simp [same, erased, same_iff a b]
    | _ => simp [same, erased]
  | tuple as =>
    cases b with
    | tuple bs => simp [same, erased, sameAll_iff as bs]
    | _ => simp [same, erased]
  | object m as =>
    cases b with
    | object n bs => simp [same, erased, sameFields_iff as bs]
    | _ => simp [same, erased]
  | func ps r =>
    cases b with
    | func qs s => simp [same, erased, same_iff r s, sameParams_iff ps qs, and_comm]
    | _ => simp [same, erased]
termination_by structural a

theorem sameAll_iff (as bs : List Ty) : sameAll as bs = true ↔ erasedAll as = erasedAll bs := by
  cases as with
  | nil => cases bs <;> simp [sameAll, erasedAll]
  | cons a as =>
    cases bs with
    | nil => simp [sameAll, erasedAll]
    | cons b bs => simp [sameAll, erasedAll, same_iff a b, sameAll_iff as bs]
termination_by structural as

theorem sameFields_iff (as bs : List (String × Ty)) :
    sameFields as bs = true ↔ erasedFields as = erasedFields bs := by
  cases as with
  | nil => cases bs <;> simp [sameFields, erasedFields]
  | cons f as =>
    obtain ⟨m, a⟩ := f
    cases bs with
    | nil => simp [sameFields, erasedFields]
    | cons f bs =>
      obtain ⟨n, b⟩ := f
      simp [sameFields, erasedFields, same_iff a b, sameFields_iff as bs]
termination_by structural as

theorem sameParams_iff (ps qs : List (String × Ty)) :
    sameParams ps qs = true ↔ erasedParams ps = erasedParams qs := by
  cases ps with
  | nil => cases qs <;> simp [sameParams, erasedParams]
  | cons p ps =>
    obtain ⟨-, a⟩ := p
    cases qs with
    | nil => simp [sameParams, erasedParams]
    | cons q qs =>
      obtain ⟨-, b⟩ := q
      simp [sameParams, erasedParams, same_iff a b, sameParams_iff ps qs]
termination_by structural ps

end

theorem same_self (t : Ty) : same t t = true := (same_iff t t).mpr rfl

theorem beq_eq_same (a b : Ty) : (a == b) = same a b := rfl

theorem sameAll_iff_forall₂ (as bs : List Ty) :
    sameAll as bs = true ↔ List.Forall₂ (fun a b => (a == b) = true) as bs := by
  induction as generalizing bs with
  | nil => cases bs <;> simp [sameAll]
  | cons a as ih =>
    cases bs with
    | nil => simp [sameAll]
    | cons b bs => simp [sameAll, ih bs, beq_eq_same]

theorem sameFields_iff_forall₂ (fs gs : List (String × Ty)) :
    sameFields fs gs = true ↔ List.Forall₂ (fun f g => f.1 = g.1 ∧ (f.2 == g.2) = true) fs gs := by
  induction fs generalizing gs with
  | nil => cases gs <;> simp [sameFields]
  | cons f fs ih =>
    cases gs with
    | nil => simp [sameFields]
    | cons g gs => simp [sameFields, ih gs, beq_eq_same]

theorem sameParams_iff_forall₂ (ps qs : List (String × Ty)) :
    sameParams ps qs = true ↔ List.Forall₂ (fun p q => (p.2 == q.2) = true) ps qs := by
  induction ps generalizing qs with
  | nil => cases qs <;> simp [sameParams]
  | cons p ps ih =>
    cases qs with
    | nil => simp [sameParams]
    | cons q qs => simp [sameParams, ih qs, beq_eq_same]

/-- Equality is identity up to erasure, hence an equivalence. The name of an object counts, and of
its fields the names, the types and the order; so do the parts of a tuple in their order. Of the
parameters of a function only the types count. -/
theorem equality_structural :
    (∀ a b : Ty, (a == b) = true ↔ a.erased = b.erased) ∧
    Equivalence (fun a b : Ty => (a == b) = true) ∧
    (∀ (m n : String) (fs gs : List (String × Ty)), (object m fs == object n gs) = true ↔
      m = n ∧ List.Forall₂ (fun f g => f.1 = g.1 ∧ (f.2 == g.2) = true) fs gs) ∧
    (∀ as bs : List Ty, (tuple as == tuple bs) = true ↔
      List.Forall₂ (fun a b => (a == b) = true) as bs) ∧
    ∀ (ps qs : List (String × Ty)) (r s : Ty), (func ps r == func qs s) = true ↔
      List.Forall₂ (fun p q => (p.2 == q.2) = true) ps qs ∧ (r == s) = true := by
  refine ⟨same_iff, ⟨same_self, fun h => ?_, fun h h' => ?_⟩, fun m n fs gs => ?_, ?_, ?_⟩
  · exact (same_iff _ _).mpr ((same_iff _ _).mp h).symm
  · exact (same_iff _ _).mpr (((same_iff _ _).mp h).trans ((same_iff _ _).mp h'))
  · rw [beq_eq_same, same, Bool.and_eq_true, beq_iff_eq, sameFields_iff_forall₂]
  · exact sameAll_iff_forall₂
  · intro ps qs r s
    rw [beq_eq_same, same, Bool.and_eq_true, sameParams_iff_forall₂, and_comm, beq_eq_same]

example : (array (func [("x", func [("y", int)] bool)] unit) ==
    array (func [("y", func [("z", int)] bool)] unit)) = true := by decide

end EdeLang.Ty
