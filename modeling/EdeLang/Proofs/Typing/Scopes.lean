import EdeLang.Proofs.Typing.Judgement
import EdeLang.Typing.Scope

/-!
# Scopes as a stack

Scopes are kept in one array and refer to their parents by number. Parents are older than their
children, so what a scope sees is a list of scopes that only changes where a scope on it does.
This list models a context of typed variables and a table of functions.
-/

namespace EdeLang

namespace Scope

def vars (s : Scope) : List (String × Ty) :=
  s.entries.filterMap fun (name, e) => if e.kind = .variable then some (name, e.type) else none

def declare (s : Scope) (name : String) (e : Entry) : Scope :=
  { s with entries := (name, e) :: s.entries }

@[simp]
theorem vars_declare_variable (s : Scope) (name : String) (type : Ty) (pos : Pos) :
    (s.declare name ⟨.variable, type, pos⟩).vars = (name, type) :: s.vars := rfl

theorem vars_declare_of_ne {s : Scope} {name : String} {e : Entry} (h : e.kind ≠ .variable) :
    (s.declare name e).vars = s.vars := by
  simp [vars, declare, h]

theorem lookup_vars {s : Scope} {name : String} {e : Entry} (hfind : s.find? name = some e)
    (hkind : e.kind = .variable) : s.vars.lookup name = some e.type := by
  unfold find? at hfind
  unfold vars
  generalize s.entries = entries at hfind ⊢
  induction entries with
  | nil => simp at hfind
  | cons entry entries ih =>
    obtain ⟨n, e'⟩ := entry
    by_cases hn : name = n
    · subst hn
      obtain rfl : e' = e := by simpa using hfind
      simp [hkind]
    · rw [List.lookup_cons, beq_false_of_ne hn] at hfind
      by_cases hvar : e'.kind = .variable
      · simpa [hvar, List.lookup_cons, beq_false_of_ne hn] using ih hfind
      · simpa [hvar] using ih hfind

theorem lookup_vars_eq_none {s : Scope} {name : String} (hfind : s.find? name = none) :
    s.vars.lookup name = none := by
  rw [find?, List.lookup_eq_none_iff] at hfind
  rw [List.lookup_eq_none_iff]
  intro p hp
  obtain ⟨⟨n, e⟩, hmem, heq⟩ := List.mem_filterMap.mp hp
  have hne := hfind _ hmem
  by_cases hvar : e.kind = .variable
  · obtain rfl : (n, e.type) = p := by simpa [hvar] using heq
    exact hne
  · simp [hvar] at heq

end Scope

namespace Scopes

def WF (s : Scopes) : Prop :=
  ∀ id scope, s.get? id = some scope → ∀ parent, scope.parent = some parent → parent < id

theorem lt_of_get? {s : Scopes} {id : Nat} {scope : Scope} (h : s.get? id = some scope) :
    id < s.scopes.size := (Array.getElem?_eq_some_iff.mp h).1

private theorem walk_eq_of_lt {s s' : Scopes} (hwf : s.WF) :
    ∀ (id steps steps' : Nat), id < steps → id < steps' →
      (∀ j ≤ id, s'.get? j = s.get? j) → s'.walk steps' id = s.walk steps id := by
  intro id
  induction id using Nat.strongRecOn with
  | ind id ih =>
    intro steps steps' hsteps hsteps' hsame
    obtain ⟨steps, rfl⟩ := Nat.exists_eq_add_of_lt hsteps
    obtain ⟨steps', rfl⟩ := Nat.exists_eq_add_of_lt hsteps'
    rw [walk, walk, hsame id (Nat.le_refl id)]
    cases hscope : s.get? id with
    | none => rfl
    | some scope =>
      cases hparent : scope.parent with
      | none => simp [hparent]
      | some parent =>
        have hlt := hwf id scope hscope parent hparent
        simp only [hparent]
        rw [ih parent hlt (id + steps) (id + steps') (by omega) (by omega)
          fun j hj => hsame j (by omega)]

/-- What a scope sees does not change if no older scope does. -/
theorem ancestors_congr {s s' : Scopes} {id : Nat} (hwf : s.WF)
    (hsame : ∀ j ≤ id, s'.get? j = s.get? j) : s'.ancestors id = s.ancestors id :=
  walk_eq_of_lt hwf id (id + 1) (id + 1) (by omega) (by omega) hsame

theorem ancestors_eq {s : Scopes} {id : Nat} {scope : Scope} (hwf : s.WF)
    (hscope : s.get? id = some scope) :
    s.ancestors id = scope :: (scope.parent.map s.ancestors).getD [] := by
  rw [ancestors, walk, hscope]
  cases hparent : scope.parent with
  | none => simp [hparent]
  | some parent =>
    have hlt := hwf id scope hscope parent hparent
    simp only [hparent, Option.map_some, Option.getD_some]
    rw [walk_eq_of_lt hwf parent (parent + 1) id (by omega) hlt fun _ _ => rfl, ancestors]

@[simp]
theorem push_fst (s : Scopes) (scope : Scope) : (s.push scope).1 = s.scopes.size := rfl

theorem get?_push (s : Scopes) (scope : Scope) (id : Nat) :
    (s.push scope).2.get? id = if id = s.scopes.size then some scope else s.get? id := by
  simp [push, get?, Array.getElem?_push]

@[simp]
theorem size_push (s : Scopes) (scope : Scope) :
    (s.push scope).2.scopes.size = s.scopes.size + 1 := by
  simp [push]

theorem get?_push_of_lt {s : Scopes} {scope : Scope} {id : Nat} (h : id < s.scopes.size) :
    (s.push scope).2.get? id = s.get? id := by
  rw [get?_push, if_neg (by omega)]

theorem WF.push {s : Scopes} {scope : Scope} (hwf : s.WF)
    (hparent : ∀ parent, scope.parent = some parent → parent < s.scopes.size) :
    (s.push scope).2.WF := by
  intro id found hfound parent hp
  rw [get?_push] at hfound
  split at hfound
  · obtain rfl : scope = found := by simpa using hfound
    have := hparent parent hp
    omega
  · exact hwf id found hfound parent hp

theorem ancestors_push {s : Scopes} {id : Nat} {scope : Scope} (hwf : s.WF)
    (hid : id < s.scopes.size) (hparent : scope.parent = some id) :
    (s.push scope).2.ancestors (s.push scope).1 = scope :: s.ancestors id := by
  have hwf' : (s.push scope).2.WF := hwf.push fun parent hp => by
    rw [hparent] at hp
    obtain rfl : id = parent := by simpa using hp
    exact hid
  have hscope : (s.push scope).2.get? (s.push scope).1 = some scope := by simp [get?_push]
  rw [ancestors_eq hwf' hscope, hparent]
  simp only [Option.map_some, Option.getD_some]
  rw [ancestors_congr hwf fun j hj => get?_push_of_lt (by omega)]

/-- What `add` does, if it succeeds: one scope has one more declaration, of a new name. -/
theorem add_ok {s s' : Scopes} {id : Nat} {name : String} {e : Entry} {scope : Scope}
    (h : s.add id name e = .ok s') (hscope : s.get? id = some scope) :
    scope.find? name = none ∧ s'.get? id = some (scope.declare name e) ∧
      (∀ j, j ≠ id → s'.get? j = s.get? j) ∧ s'.scopes.size = s.scopes.size := by
  unfold add findLocal? at h
  rw [hscope] at h
  cases hfind : scope.find? name with
  | some earlier => simp [hfind] at h
  | none =>
    simp only [Option.bind_some, hfind, Except.ok.injEq] at h
    subst h
    have hlt := lt_of_get? hscope
    refine ⟨rfl, ?_, fun j hj => ?_, by simp⟩
    · unfold get? at hscope ⊢
      simp [Array.getElem?_modify, hscope, Scope.declare]
    · simp [get?, Array.getElem?_modify, Ne.symm hj]

theorem WF.of_same_parents {s s' : Scopes} (hwf : s.WF)
    (h : ∀ j scope, s'.get? j = some scope →
      ∃ scope', s.get? j = some scope' ∧ scope'.parent = scope.parent) : s'.WF := by
  intro id scope hscope parent hp
  obtain ⟨scope', hscope', hsame⟩ := h id scope hscope
  exact hwf id scope' hscope' parent (hsame.trans hp)

theorem WF.add {s s' : Scopes} {id : Nat} {name : String} {e : Entry} {scope : Scope}
    (hwf : s.WF) (h : s.add id name e = .ok s') (hscope : s.get? id = some scope) : s'.WF := by
  obtain ⟨_, hid, hother, _⟩ := add_ok h hscope
  refine hwf.of_same_parents fun j found hfound => ?_
  by_cases hj : j = id
  · subst hj
    rw [hid] at hfound
    obtain rfl : scope.declare name e = found := by simpa using hfound
    exact ⟨scope, hscope, rfl⟩
  · exact ⟨found, hother j hj ▸ hfound, rfl⟩

theorem ancestors_add {s s' : Scopes} {id : Nat} {name : String} {e : Entry} {scope : Scope}
    {outer : List Scope} (hwf : s.WF) (h : s.add id name e = .ok s')
    (hscope : s.get? id = some scope) (hview : s.ancestors id = scope :: outer) :
    s'.ancestors id = scope.declare name e :: outer := by
  obtain ⟨_, hid, hother, _⟩ := add_ok h hscope
  rw [ancestors_eq hwf hscope] at hview
  rw [ancestors_eq (hwf.add h hscope) hid, ← (List.cons.inj hview).2]
  cases hparent : scope.parent with
  | none => simp [Scope.declare, hparent]
  | some parent =>
    have hlt := hwf id scope hscope parent hparent
    simp only [Scope.declare, hparent, Option.map_some, Option.getD_some, List.cons.injEq, true_and]
    exact ancestors_congr hwf fun j hj => hother j (by omega)

end Scopes

/-- The declaration agrees with a table of functions. The type of an object has its name, and
different names for its fields. -/
def Entry.Fits (sigs : Signatures) (name : String) (e : Entry) : Prop :=
  match e.kind, e.type with
  | .function, .func params ret => sigs name = some (params, ret)
  | .typename, .object object fields => object = name ∧ (fields.map Prod.fst).Nodup
  | _, _ => True

def Scope.AllFit (sigs : Signatures) (scopes : List Scope) : Prop :=
  ∀ scope ∈ scopes, ∀ p ∈ scope.entries, p.2.Fits sigs p.1

theorem Scope.allFit_declare {sigs : Signatures} {name : String} {e : Entry} {scope : Scope}
    {outer : List Scope} : AllFit sigs (scope.declare name e :: outer) ↔
      e.Fits sigs name ∧ AllFit sigs (scope :: outer) := by
  simp only [AllFit, declare, List.forall_mem_cons, and_assoc]

namespace Scopes

/-- What a scope sees: the variables of a context, and the result type of a function. -/
structure Models (s : Scopes) (id : Nat) (ctx : Context) (ret : Option Ty) : Prop where
  wf : s.WF
  stack : ∃ scope inner outer, s.get? id = some scope ∧
    s.ancestors id = scope :: (inner ++ outer) ∧ ctx = scope.vars :: inner.map Scope.vars ∧
    ∀ sc ∈ outer, sc.vars = []
  result : s.returnType? id = ret

/-- No scope but one has changed, and that one agrees with every table it agreed with before. New
scopes may have been added. -/
structure Grows (s : Scopes) (id : Nat) (s' : Scopes) : Prop where
  size_le : s.scopes.size ≤ s'.scopes.size
  same : ∀ j < s.scopes.size, j ≠ id → s'.get? j = s.get? j
  fit : ∀ sigs, Scope.AllFit sigs (s.ancestors id) → Scope.AllFit sigs (s'.ancestors id)

section Models

variable {s s' : Scopes} {id : Nat} {ctx ctx' : Context} {ret : Option Ty}

theorem Grows.refl (s : Scopes) (id : Nat) : s.Grows id s :=
  ⟨Nat.le_refl _, fun _ _ _ => rfl, fun _ h => h⟩

theorem Grows.trans {s'' : Scopes} (first : s.Grows id s') (second : s'.Grows id s'') :
    s.Grows id s'' where
  size_le := Nat.le_trans first.size_le second.size_le
  same j hj hne := (second.same j (Nat.lt_of_lt_of_le hj first.size_le) hne).trans
    (first.same j hj hne)
  fit sigs h := second.fit sigs (first.fit sigs h)

theorem Models.lt (h : s.Models id ctx ret) : id < s.scopes.size := by
  obtain ⟨scope, _, _, hscope, _⟩ := h.stack
  exact lt_of_get? hscope

/-- Nothing changes for a scope if no older scope changes. -/
theorem Models.of_same (h : s.Models id ctx ret) (hwf : s'.WF)
    (hsame : ∀ j ≤ id, s'.get? j = s.get? j) : s'.Models id ctx ret := by
  have hview : s'.ancestors id = s.ancestors id := ancestors_congr h.wf hsame
  refine ⟨hwf, ?_, ?_⟩
  · rw [hview, hsame id (Nat.le_refl id)]
    exact h.stack
  · rw [returnType?, hview]
    exact h.result

private theorem Models.ancestors_child (h : s.Models id ctx ret) :
    (s.child id).2.ancestors (s.child id).1 = ⟨some id, [], none⟩ :: s.ancestors id :=
  ancestors_push h.wf h.lt rfl

theorem Models.child (h : s.Models id ctx ret) :
    (s.child id).2.Models (s.child id).1 ([] :: ctx) ret := by
  obtain ⟨scope, inner, outer, hscope, hview, hctx, houter⟩ := h.stack
  refine ⟨h.wf.push fun parent hp => ?_, ?_, ?_⟩
  · obtain rfl : id = parent := by simpa using hp
    exact h.lt
  · refine ⟨⟨some id, [], none⟩, scope :: inner, outer, by simp [Scopes.child, get?_push], ?_, ?_,
      houter⟩
    · rw [h.ancestors_child, hview]
      rfl
    · rw [hctx]
      rfl
  · rw [returnType?, h.ancestors_child]
    exact h.result

theorem Models.allFit_child {sigs : Signatures} (h : s.Models id ctx ret)
    (hfit : Scope.AllFit sigs (s.ancestors id)) :
    Scope.AllFit sigs ((s.child id).2.ancestors (s.child id).1) := by
  rw [h.ancestors_child]
  exact List.forall_mem_cons.mpr ⟨by simp, hfit⟩

/-- After a scope inside has been left, everything older is as before. -/
theorem Models.leave (h : s.Models id ctx ret) (hinner : s'.Models (s.child id).1 ctx' ret)
    (hgrows : (s.child id).2.Grows (s.child id).1 s') :
    s'.Models id ctx ret ∧ s.Grows id s' := by
  have hsize : (s.child id).2.scopes.size = s.scopes.size + 1 := size_push s _
  have hsame : ∀ j < s.scopes.size, s'.get? j = s.get? j := by
    intro j hj
    have hne : j ≠ (s.child id).1 := by
      show j ≠ s.scopes.size
      omega
    rw [hgrows.same j (by omega) hne]
    exact get?_push_of_lt hj
  have hlt := h.lt
  have holder : ∀ j ≤ id, s'.get? j = s.get? j := fun j hj => hsame j (by omega)
  refine ⟨h.of_same hinner.wf holder, ?_, fun j hj _ => hsame j hj, fun sigs hfit => ?_⟩
  · have := hgrows.size_le
    omega
  · rwa [ancestors_congr h.wf holder]

theorem Models.declare {name : String} {type : Ty} {pos : Pos} (h : s.Models id ctx ret)
    (hadd : s.add id name ⟨.variable, type, pos⟩ = .ok s') :
    s'.Models id (ctx.bind name type) ret ∧ s.Grows id s' := by
  obtain ⟨scope, inner, outer, hscope, hview, rfl, houter⟩ := h.stack
  obtain ⟨_, hid, hother, hsize⟩ := add_ok hadd hscope
  have hnew := ancestors_add h.wf hadd hscope hview
  have hresult := h.result
  rw [returnType?, hview] at hresult
  refine ⟨⟨h.wf.add hadd hscope, ⟨_, inner, outer, hid, hnew, rfl, houter⟩, ?_⟩,
    Nat.le_of_eq hsize.symm, fun j _ hne => hother j hne, fun sigs hfit => ?_⟩
  · rw [returnType?, hnew]
    exact hresult
  · rw [hnew]
    exact Scope.allFit_declare.mpr ⟨trivial, hview ▸ hfit⟩

end Models

/-- What names denote in a scope agrees with a context and a table of functions. -/
structure Agrees (s : Scopes) (id : Nat) (sigs : Signatures) (ctx : Context) : Prop where
  vars : ∀ {name e}, s.find? id name = some e → e.kind = .variable →
    ctx.find? name = some e.type
  declared : ∀ {name e}, s.find? id name = some e → e.Fits sigs name

private theorem findSome_vars {scopes outer : List Scope} {name : String} {e : Entry}
    (inner : List Scope) (hview : scopes = inner ++ outer) (houter : ∀ sc ∈ outer, sc.vars = [])
    (hfind : scopes.findSome? (fun scope => scope.find? name) = some e)
    (hkind : e.kind = .variable) :
    (inner.map Scope.vars).findSome? (fun vars => vars.lookup name) = some e.type := by
  subst hview
  induction inner with
  | nil =>
    obtain ⟨sc, hsc, hfound⟩ := List.exists_of_findSome?_eq_some hfind
    have := Scope.lookup_vars hfound hkind
    simp [houter sc hsc] at this
  | cons sc inner ih =>
    cases hsc : sc.find? name with
    | some found =>
      obtain rfl : found = e := by simpa [hsc] using hfind
      simp [Scope.lookup_vars hsc hkind]
    | none =>
      simpa [Scope.lookup_vars_eq_none hsc] using ih (by simpa [hsc] using hfind)

theorem Models.agrees {s : Scopes} {id : Nat} {sigs : Signatures} {ctx : Context}
    {ret : Option Ty} (h : s.Models id ctx ret) (hfit : Scope.AllFit sigs (s.ancestors id)) :
    s.Agrees id sigs ctx := by
  obtain ⟨scope, inner, outer, _, hview, hctx, houter⟩ := h.stack
  refine ⟨fun hfind hkind => ?_, fun hfind => ?_⟩
  · rw [hctx]
    exact findSome_vars (scope :: inner) hview houter hfind hkind
  · obtain ⟨sc, hsc, hfound⟩ := List.exists_of_findSome?_eq_some hfind
    obtain ⟨before, after, hentries, _⟩ := List.lookup_eq_some_iff.mp hfound
    exact hfit sc hsc (_, _) (by simp [hentries])

end Scopes
end EdeLang
