import EdeLang.Evaluation.Value
import EdeLang.Proofs.Typing.Equality

/-!
# Values of a type

Every type has its values. The default value of a type is one of them, and types that are the
same have the same values.
-/

namespace EdeLang.Ty

mutual

/-- The value inhabits the type. Unit stands for functions, which are no values. -/
def Has : Ty → Value → Prop
  | .prim .unit, v => v = .unit
  | .prim .int, v => ∃ n, v = .int n
  | .prim .string, v => ∃ s, v = .string s
  | .prim .char, v => ∃ c, v = .char c
  | .prim .bool, v => ∃ b, v = .bool b
  | .array elem, v => ∃ vs, v = .array vs ∧ ∀ x ∈ vs, Has elem x
  | .tuple elems, v => ∃ vs, v = .tuple vs ∧ HasAll elems vs
  | .object name fields, v => ∃ vs, v = .object name vs ∧ HasFields fields vs
  | .func _ _, v => v = .unit

def HasAll : List Ty → List Value → Prop
  | [], vs => vs = []
  | t :: ts, vs => ∃ w ws, vs = w :: ws ∧ Has t w ∧ HasAll ts ws

def HasFields : List (String × Ty) → List (String × Value) → Prop
  | [], vs => vs = []
  | (name, t) :: fields, vs => ∃ w ws, vs = (name, w) :: ws ∧ Has t w ∧ HasFields fields ws

end

mutual

theorem has_ofType : ∀ t : Ty, t.Has (Value.ofType t)
  | .prim p => by cases p <;> simp [Has, Value.ofType, Value.ofPrimitive]
  | .array _ => by simp [Has, Value.ofType]
  | .tuple elems => ⟨_, rfl, hasAll_ofTypes elems⟩
  | .object _ fields => ⟨_, rfl, hasFields_ofFields fields⟩
  | .func _ _ => rfl

theorem hasAll_ofTypes : ∀ ts : List Ty, HasAll ts (Value.ofTypes ts)
  | [] => rfl
  | t :: ts => ⟨_, _, rfl, has_ofType t, hasAll_ofTypes ts⟩

theorem hasFields_ofFields : ∀ fields : List (String × Ty), HasFields fields (Value.ofFields fields)
  | [] => rfl
  | (_, t) :: fields => ⟨_, _, rfl, has_ofType t, hasFields_ofFields fields⟩

end

mutual

/-- Types that are the same have the same values. -/
theorem has_of_same : ∀ {a b : Ty} {v : Value}, same a b = true → (a.Has v ↔ b.Has v)
  | .prim p, .prim q, v, h => by
    have hpq : p = q := by simpa [same] using h
    rw [hpq]
  | .array a, .array b, v, h => by
    have hab : ∀ x, a.Has x ↔ b.Has x := fun x => has_of_same (by simpa [same] using h)
    simp only [Has, hab]
  | .tuple as, .tuple bs, v, h => by
    have hab : ∀ vs, HasAll as vs ↔ HasAll bs vs :=
      fun vs => hasAll_of_same (by simpa [same] using h)
    simp only [Has, hab]
  | .object m as, .object n bs, v, h => by
    have hparts : m = n ∧ sameFields as bs = true := by simpa [same] using h
    have hab : ∀ vs, HasFields as vs ↔ HasFields bs vs := fun vs => hasFields_of_same hparts.2
    simp only [Has, hab, hparts.1]
  | .func _ _, .func _ _, v, _ => Iff.rfl
  | .prim _, .array _, _, h | .prim _, .tuple _, _, h | .prim _, .object _ _, _, h
  | .prim _, .func _ _, _, h | .array _, .prim _, _, h | .array _, .tuple _, _, h
  | .array _, .object _ _, _, h | .array _, .func _ _, _, h | .tuple _, .prim _, _, h
  | .tuple _, .array _, _, h | .tuple _, .object _ _, _, h | .tuple _, .func _ _, _, h
  | .object _ _, .prim _, _, h | .object _ _, .array _, _, h | .object _ _, .tuple _, _, h
  | .object _ _, .func _ _, _, h | .func _ _, .prim _, _, h | .func _ _, .array _, _, h
  | .func _ _, .tuple _, _, h | .func _ _, .object _ _, _, h => by simp [same] at h

theorem hasAll_of_same : ∀ {as bs : List Ty} {vs : List Value}, sameAll as bs = true →
    (HasAll as vs ↔ HasAll bs vs)
  | [], [], _, _ => Iff.rfl
  | a :: as, b :: bs, vs, h => by
    have hparts : same a b = true ∧ sameAll as bs = true := by simpa [sameAll] using h
    have hhead : ∀ x, a.Has x ↔ b.Has x := fun x => has_of_same hparts.1
    have htail : ∀ xs, HasAll as xs ↔ HasAll bs xs := fun xs => hasAll_of_same hparts.2
    simp only [HasAll, hhead, htail]
  | [], _ :: _, _, h | _ :: _, [], _, h => by simp [sameAll] at h

theorem hasFields_of_same : ∀ {as bs : List (String × Ty)} {vs : List (String × Value)},
    sameFields as bs = true → (HasFields as vs ↔ HasFields bs vs)
  | [], [], _, _ => Iff.rfl
  | (m, a) :: as, (n, b) :: bs, vs, h => by
    have hparts : (m = n ∧ same a b = true) ∧ sameFields as bs = true := by
      simpa [sameFields] using h
    have hhead : ∀ x, a.Has x ↔ b.Has x := fun x => has_of_same hparts.1.2
    have htail : ∀ xs, HasFields as xs ↔ HasFields bs xs := fun xs => hasFields_of_same hparts.2
    simp only [HasFields, hhead, htail, hparts.1.1]
  | [], _ :: _, _, h | _ :: _, [], _, h => by simp [sameFields] at h

end

theorem eq_prim_of_same {t : Ty} {p : Primitive} (h : same t (.prim p) = true) : t = .prim p := by
  cases t <;> simp_all [same]

theorem has_of_hasAll {elem : Ty} : ∀ {types : List Ty} {vs : List Value},
    HasAll types vs → (∀ t ∈ types, same elem t = true) → ∀ v ∈ vs, elem.Has v
  | [], _, rfl, _ => by simp
  | t :: types, _, ⟨w, ws, rfl, hw, hws⟩, hsame => by
    obtain ⟨ht, htypes⟩ := List.forall_mem_cons.mp hsame
    exact List.forall_mem_cons.mpr ⟨(has_of_same ht).mpr hw, has_of_hasAll hws htypes⟩

theorem hasAll_of_forall₂ : ∀ {types : List Ty} {params : List (String × Ty)} {vs : List Value},
    HasAll types vs → List.Forall₂ (fun t p => same t p.2 = true) types params →
      HasAll (params.map Prod.snd) vs
  | [], [], _, h, .nil => h
  | _ :: _, _ :: _, _, ⟨w, ws, rfl, hw, hws⟩, .cons ht hrest =>
    ⟨w, ws, rfl, (has_of_same ht).mp hw, hasAll_of_forall₂ hws hrest⟩

end EdeLang.Ty
