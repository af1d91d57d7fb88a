import EdeLang.Proofs.Typing.Scopes

/-!
# Lookup in nested scopes

Scopes are made by adding an empty scope inside one that exists, or a declaration to one that
exists. From every scope there is one way outwards, and it ends at the prelude. A name denotes what
the first scope on the way that declares it says, so a new declaration is seen from those scopes
only that reach it before another one of the name.
-/

namespace EdeLang.Scopes

def parent? (s : Scopes) (id : Nat) : Option Nat := (s.get? id).bind Scope.parent

/-- The result type of a scope that is itself the scope of a function. -/
def ownReturnType? (s : Scopes) (id : Nat) : Option Ty := (s.get? id).bind Scope.ret

/-- The way outwards from one scope to another, and the scopes that are left on it. -/
inductive Way (s : Scopes) : Nat → List Nat → Nat → Prop
  | here (id : Nat) : Way s id [] id
  | out {id parent goal : Nat} {left : List Nat} (hparent : s.parent? id = some parent)
      (hway : Way s parent left goal) : Way s id (id :: left) goal

/-- A scope is on the way outwards, and none before it declares the name. -/
def Sees (s : Scopes) (id : Nat) (name : String) (goal : Nat) : Prop :=
  ∃ left, s.Way id left goal ∧ ∀ k ∈ left, s.findLocal? k name = none

theorem WF.parent?_lt {s : Scopes} (hwf : s.WF) {id parent : Nat} (h : s.parent? id = some parent) :
    parent < id := by
  obtain ⟨scope, hscope, hparent⟩ := Option.bind_eq_some_iff.mp h
  exact hwf id scope hscope parent hparent

namespace Way

variable {s s' : Scopes} {id goal : Nat} {left : List Nat}

theorem congr (hway : s.Way id left goal) (hsame : ∀ k, s'.parent? k = s.parent? k) :
    s'.Way id left goal := by
  induction hway with
  | here id => exact .here id
  | out hparent _ ih => exact .out ((hsame _).trans hparent) ih

theorem lt (hwf : s.WF) (hway : s.Way id left goal) : goal ≤ id ∧ ∀ k ∈ left, goal < k := by
  induction hway with
  | here id => simp
  | out hparent _ ih =>
    have hlt := hwf.parent?_lt hparent
    refine ⟨by omega, List.forall_mem_cons.mpr ⟨by omega, ih.2⟩⟩

theorem stop (hway : s.Way id left goal) {k : Nat} (hk : k ∈ left) :
    ∃ first rest, left = first ++ rest ∧ s.Way id first k := by
  induction hway with
  | here id => cases hk
  | @out id parent goal left hparent _ ih =>
    rcases List.mem_cons.mp hk with rfl | hk
    · exact ⟨[], _, rfl, .here k⟩
    · obtain ⟨first, rest, rfl, hfirst⟩ := ih hk
      exact ⟨id :: first, rest, rfl, .out hparent hfirst⟩

end Way

/-- What a scope sees are the scopes on the way outwards, and the first of them that has an answer
gives it. -/
theorem findSome?_ancestors {α : Type} {s : Scopes} (hwf : s.WF) (f : Scope → Option α) (id : Nat)
    (a : α) : (s.ancestors id).findSome? f = some a ↔ ∃ left goal, s.Way id left goal ∧
      (∀ k ∈ left, (s.get? k).bind f = none) ∧ (s.get? goal).bind f = some a := by
  induction id using Nat.strongRecOn with
  | ind id ih =>
    constructor
    · intro hfind
      cases hscope : s.get? id with
      | none => simp [ancestors, walk, hscope] at hfind
      | some scope =>
        rw [ancestors_eq hwf hscope, List.findSome?_cons] at hfind
        cases hf : f scope with
        | some found =>
          refine ⟨[], id, .here id, by simp, ?_⟩
          simpa [hscope, hf] using hfind
        | none =>
          cases hparent : scope.parent with
          | none => simp [hf, hparent] at hfind
          | some parent =>
            have hlt := hwf id scope hscope parent hparent
            obtain ⟨left, goal, hway, hnone, hsome⟩ :=
              (ih parent hlt).mp (by simpa [hf, hparent] using hfind)
            refine ⟨id :: left, goal, .out (by simp [parent?, hscope, hparent]) hway, ?_, hsome⟩
            simpa [hscope, hf] using hnone
    · rintro ⟨left, goal, hway, hnone, hsome⟩
      cases hway with
      | here =>
        obtain ⟨scope, hscope, hf⟩ := Option.bind_eq_some_iff.mp hsome
        simp [ancestors_eq hwf hscope, hf]
      | out hup hway =>
        obtain ⟨scope, hscope, hparent⟩ := Option.bind_eq_some_iff.mp hup
        have hf : f scope = none := by simpa [hscope] using hnone id List.mem_cons_self
        have hrest := (ih _ (hwf.parent?_lt hup)).mpr
          ⟨_, goal, hway, fun k hk => hnone k (List.mem_cons_of_mem id hk), hsome⟩
        simpa [ancestors_eq hwf hscope, hf, hparent] using hrest

theorem find?_eq_some_iff {s : Scopes} (hwf : s.WF) {id : Nat} {name : String} {e : Entry} :
    s.find? id name = some e ↔ ∃ goal, s.Sees id name goal ∧ s.findLocal? goal name = some e := by
  rw [find?, findSome?_ancestors hwf]
  constructor
  · rintro ⟨left, goal, hway, hnone, hsome⟩
    exact ⟨goal, ⟨left, hway, hnone⟩, hsome⟩
  · rintro ⟨goal, ⟨left, hway, hnone⟩, hsome⟩
    exact ⟨left, goal, hway, hnone, hsome⟩

theorem findSome?_ancestors_congr {α : Type} {s s' : Scopes} {f : Scope → Option α} (hwf : s.WF)
    (hwf' : s'.WF) (hparent : ∀ k, s'.parent? k = s.parent? k)
    (hsame : ∀ k, (s'.get? k).bind f = (s.get? k).bind f) (id : Nat) :
    (s'.ancestors id).findSome? f = (s.ancestors id).findSome? f := by
  apply Option.ext
  intro a
  rw [findSome?_ancestors hwf, findSome?_ancestors hwf']
  constructor
  · rintro ⟨left, goal, hway, hnone, hsome⟩
    exact ⟨left, goal, hway.congr fun k => (hparent k).symm, fun k hk => hsame k ▸ hnone k hk,
      hsame goal ▸ hsome⟩
  · rintro ⟨left, goal, hway, hnone, hsome⟩
    exact ⟨left, goal, hway.congr hparent, fun k hk => (hsame k).trans (hnone k hk),
      (hsame goal).trans hsome⟩

inductive Op where
  | child (parent : Nat)
  | function (parent : Nat) (ret : Ty)
  | add (id : Nat) (name : String) (e : Entry)

def Op.scope : Op → Nat
  | .child parent | .function parent _ => parent
  | .add id _ _ => id

/-- The scopes after an operation. A declaration that fails leaves them as they are. -/
def Op.run (s : Scopes) : Op → Scopes
  | .child parent => (s.child parent).2
  | .function parent ret => (s.function parent ret).2
  | .add id name e =>
    match s.add id name e with
    | .ok s' => s'
    | .error _ => s

/-- Scopes that are made by operations on scopes that exist. -/
inductive Made : Scopes → Prop
  | initial : Made initial
  | step {s : Scopes} (op : Op) (hmade : Made s) (hid : op.scope < s.scopes.size) : Made (op.run s)

/-- Parents are older, and the prelude is the one scope without a parent. -/
structure Rooted (s : Scopes) : Prop where
  wf : s.WF
  root : ∀ id < s.scopes.size, s.parent? id = none → id = preludeId
  prelude : s.parent? preludeId = none

namespace Rooted

variable {s s' : Scopes}

theorem initial : Rooted initial where
  wf id scope hscope parent hparent := by
    obtain ⟨hlt, rfl⟩ := Array.getElem?_eq_some_iff.mp hscope
    have hzero : id = 0 := by simpa [Scopes.initial] using hlt
    subst hzero
    cases hparent
  root id hid _ := by simpa [Scopes.initial, preludeId] using hid
  prelude := rfl

theorem push {parent : Nat} {scope : Scope} (h : s.Rooted) (hparent : scope.parent = some parent)
    (hlt : parent < s.scopes.size) : (s.push scope).2.Rooted where
  wf := h.wf.push fun other hother => by
    rw [hparent] at hother
    cases hother
    exact hlt
  root id hid hnone := by
    rw [parent?, get?_push] at hnone
    split at hnone
    · simp [hparent] at hnone
    · rw [size_push] at hid
      exact h.root id (by omega) hnone
  prelude := by
    have hzero : preludeId < s.scopes.size := by
      simp only [preludeId]
      omega
    rw [parent?, get?_push_of_lt hzero]
    exact h.prelude

end Rooted

section Add

variable {s s' : Scopes} {id : Nat} {name : String} {e : Entry}

theorem get?_of_lt (hid : id < s.scopes.size) : ∃ scope, s.get? id = some scope :=
  ⟨_, Array.getElem?_eq_getElem hid⟩

theorem bind_get?_add {α : Type} {f : Scope → Option α}
    (hf : ∀ scope : Scope, f (scope.declare name e) = f scope) (hid : id < s.scopes.size)
    (hadd : s.add id name e = .ok s') (k : Nat) : (s'.get? k).bind f = (s.get? k).bind f := by
  obtain ⟨scope, hscope⟩ := get?_of_lt hid
  obtain ⟨-, hnew, hother, -⟩ := add_ok hadd hscope
  by_cases hk : k = id
  · subst hk
    simp [hnew, hscope, hf]
  · rw [hother k hk]

theorem parent?_add (hid : id < s.scopes.size) (hadd : s.add id name e = .ok s') (k : Nat) :
    s'.parent? k = s.parent? k :=
  bind_get?_add (fun _ => rfl) hid hadd k

theorem findLocal?_add (hid : id < s.scopes.size) (hadd : s.add id name e = .ok s') (k : Nat)
    (m : String) :
    s'.findLocal? k m = if k = id ∧ m = name then some e else s.findLocal? k m := by
  obtain ⟨scope, hscope⟩ := get?_of_lt hid
  obtain ⟨-, hnew, hother, -⟩ := add_ok hadd hscope
  by_cases hk : k = id
  · subst hk
    by_cases hm : m = name
    · simp [findLocal?, hnew, Scope.find?, Scope.declare, hm]
    · simp [findLocal?, hnew, hscope, Scope.find?, Scope.declare, List.lookup_cons, hm,
        beq_false_of_ne hm]
  · simp [findLocal?, hother k hk, hk]

theorem Rooted.add (h : s.Rooted) (hid : id < s.scopes.size) (hadd : s.add id name e = .ok s') :
    s'.Rooted := by
  obtain ⟨scope, hscope⟩ := get?_of_lt hid
  obtain ⟨-, -, -, hsize⟩ := add_ok hadd hscope
  refine ⟨h.wf.add hadd hscope, fun k hk hnone => ?_, ?_⟩
  · exact h.root k (hsize ▸ hk) (parent?_add hid hadd k ▸ hnone)
  · rw [parent?_add hid hadd]
    exact h.prelude

/-- A new declaration is found from every scope that sees its scope. -/
theorem find?_add_of_sees (hwf : s.WF) (hid : id < s.scopes.size) (hadd : s.add id name e = .ok s')
    {j : Nat} (hsees : s.Sees j name id) : s'.find? j name = some e := by
  obtain ⟨left, hway, hnone⟩ := hsees
  obtain ⟨scope, hscope⟩ := get?_of_lt hid
  refine (find?_eq_some_iff (hwf.add hadd hscope)).mpr ⟨id, ⟨left, ?_, fun k hk => ?_⟩, ?_⟩
  · exact hway.congr (parent?_add hid hadd)
  · have hlt := (hway.lt hwf).2 k hk
    rw [findLocal?_add hid hadd, if_neg (by omega)]
    exact hnone k hk
  · rw [findLocal?_add hid hadd, if_pos ⟨rfl, rfl⟩]

/-- Other names, and the name from other scopes, denote what they denoted. -/
theorem find?_add_of_not (hwf : s.WF) (hid : id < s.scopes.size) (hadd : s.add id name e = .ok s')
    {j : Nat} {m : String} (hnot : m ≠ name ∨ ¬ s.Sees j name id) :
    s'.find? j m = s.find? j m := by
  obtain ⟨scope, hscope⟩ := get?_of_lt hid
  have hwf' := hwf.add hadd hscope
  by_cases hm : m = name
  · subst hm
    have hunseen : ¬ s.Sees j m id := hnot.resolve_left (· rfl)
    have hother : ∀ k ≠ id, s'.findLocal? k m = s.findLocal? k m := fun k hk => by
      rw [findLocal?_add hid hadd, if_neg fun h => hk h.1]
    apply Option.ext
    intro found
    rw [find?_eq_some_iff hwf, find?_eq_some_iff hwf']
    constructor
    · rintro ⟨goal, ⟨left, hway, hnone⟩, hsome⟩
      have hsees : s.Sees j m goal := by
        refine ⟨left, hway.congr fun k => (parent?_add hid hadd k).symm, fun k hk => ?_⟩
        have hnew := hnone k hk
        rw [findLocal?_add hid hadd] at hnew
        split at hnew
        · cases hnew
        · exact hnew
      have hne : goal ≠ id := fun heq => hunseen (heq ▸ hsees)
      exact ⟨goal, hsees, hother goal hne ▸ hsome⟩
    · rintro ⟨goal, ⟨left, hway, hnone⟩, hsome⟩
      have hleft : id ∉ left := fun hmem => by
        obtain ⟨first, rest, rfl, hfirst⟩ := hway.stop hmem
        exact hunseen ⟨first, hfirst, fun k hk => hnone k (List.mem_append_left rest hk)⟩
      have hne : goal ≠ id := fun heq => hunseen (heq ▸ ⟨left, hway, hnone⟩)
      refine ⟨goal, ⟨left, hway.congr (parent?_add hid hadd), fun k hk => ?_⟩, ?_⟩
      · rw [hother k (ne_of_mem_of_not_mem hk hleft)]
        exact hnone k hk
      · rw [hother goal hne]
        exact hsome
  · refine findSome?_ancestors_congr hwf hwf' (parent?_add hid hadd) (fun k => ?_) j
    exact (findLocal?_add hid hadd k m).trans (if_neg fun h => hm h.2)

theorem returnType?_add (hwf : s.WF) (hid : id < s.scopes.size) (hadd : s.add id name e = .ok s')
    (j : Nat) : s'.returnType? j = s.returnType? j := by
  obtain ⟨scope, hscope⟩ := get?_of_lt hid
  exact findSome?_ancestors_congr hwf (hwf.add hadd hscope) (parent?_add hid hadd)
    (bind_get?_add (fun _ => rfl) hid hadd) j

end Add

theorem add_eq_error_iff {s : Scopes} {id : Nat} {name : String} {e : Entry} {pos : Pos} :
    s.add id name e = .error pos ↔
      ∃ earlier, s.findLocal? id name = some earlier ∧ earlier.pos = pos := by
  unfold add
  cases s.findLocal? id name <;> simp

/-- The invariant of all scopes that can be made: each operation keeps it. -/
theorem Made.rooted {s : Scopes} (hmade : s.Made) : s.Rooted := by
  induction hmade with
  | initial => exact .initial
  | @step s op _ hid ih =>
    cases op with
    | child parent => exact ih.push rfl hid
    | function parent ret => exact ih.push rfl hid
    | add id name e =>
      rw [Op.run]
      cases hadd : s.add id name e with
      | ok s' => exact ih.add hid hadd
      | error pos => exact ih

theorem Rooted.exists_way {s : Scopes} (h : s.Rooted) {id : Nat} (hid : id < s.scopes.size) :
    ∃ left, s.Way id left preludeId ∧
      (s.ancestors id).map some = (left ++ [preludeId]).map s.get? := by
  induction id using Nat.strongRecOn with
  | ind id ih =>
    obtain ⟨scope, hscope⟩ := get?_of_lt hid
    have hup : s.parent? id = scope.parent := by simp [parent?, hscope]
    rw [ancestors_eq h.wf hscope]
    cases hparent : scope.parent with
    | none =>
      obtain rfl := h.root id hid (hup.trans hparent)
      exact ⟨[], .here preludeId, by simp [hscope]⟩
    | some parent =>
      have hlt := h.wf id scope hscope parent hparent
      obtain ⟨left, hway, hview⟩ := ih parent hlt (by omega)
      refine ⟨id :: left, .out (hup.trans hparent) hway, ?_⟩
      simp [hview, hscope]

theorem ancestors_push_of_lt {s : Scopes} {scope : Scope} (hwf : s.WF) {j : Nat}
    (hj : j < s.scopes.size) : (s.push scope).2.ancestors j = s.ancestors j :=
  ancestors_congr hwf fun _ hk => get?_push_of_lt (by omega)

/-- An operation that declares nothing changes no lookup from a scope that existed. -/
theorem ancestors_run {s : Scopes} (hwf : s.WF) (op : Op)
    (hsilent : ∀ id name e s', op = .add id name e → s.add id name e ≠ .ok s') {j : Nat}
    (hj : j < s.scopes.size) : (op.run s).ancestors j = s.ancestors j := by
  cases op with
  | child parent => exact ancestors_push_of_lt hwf hj
  | function parent ret => exact ancestors_push_of_lt hwf hj
  | add id name e =>
    rw [Op.run]
    cases hadd : s.add id name e with
    | ok s' => exact absurd hadd (hsilent id name e s' rfl)
    | error pos => rfl

/-- The laws of scopes made by operations on scopes that exist. Parents are older than their
children, and the walk outwards ends at the prelude. A name denotes what the nearest scope that
declares it says, and the result type is that of the nearest scope of a function. A declaration is
new to exactly the scopes that see it, and a declaration fails exactly if its scope has the name. No
other operation changes a lookup, and a new scope sees what its parent sees. -/
theorem Made.lookup_laws {s : Scopes} (hmade : s.Made) :
    (∀ id < s.scopes.size, (∀ parent, s.parent? id = some parent → parent < id) ∧
      ∃ left, s.Way id left preludeId ∧
        (s.ancestors id).map some = (left ++ [preludeId]).map s.get?) ∧
    (∀ id name e, s.find? id name = some e ↔
      ∃ goal, s.Sees id name goal ∧ s.findLocal? goal name = some e) ∧
    (∀ id ret, s.returnType? id = some ret ↔ ∃ left goal, s.Way id left goal ∧
      (∀ k ∈ left, s.ownReturnType? k = none) ∧ s.ownReturnType? goal = some ret) ∧
    (∀ id < s.scopes.size, ∀ name e s', s.add id name e = .ok s' → ∀ j,
      (s.Sees j name id → s'.find? j name = some e) ∧
      (∀ m, m ≠ name ∨ ¬ s.Sees j name id → s'.find? j m = s.find? j m) ∧
      s'.returnType? j = s.returnType? j) ∧
    (∀ id name e pos, s.add id name e = .error pos ↔
      ∃ earlier, s.findLocal? id name = some earlier ∧ earlier.pos = pos) ∧
    (∀ op : Op, (∀ id name e s', op = .add id name e → s.add id name e ≠ .ok s') →
      ∀ j < s.scopes.size, (∀ m, (op.run s).find? j m = s.find? j m) ∧
        (op.run s).returnType? j = s.returnType? j) ∧
    (∀ parent < s.scopes.size,
      (∀ m, (s.child parent).2.find? s.scopes.size m = s.find? parent m) ∧
      (s.child parent).2.returnType? s.scopes.size = s.returnType? parent ∧
      ∀ ret, (∀ m, (s.function parent ret).2.find? s.scopes.size m = s.find? parent m) ∧
        (s.function parent ret).2.returnType? s.scopes.size = some ret) := by
  have h := hmade.rooted
  refine ⟨fun id hid => ⟨fun parent => h.wf.parent?_lt, h.exists_way hid⟩,
    fun id name e => find?_eq_some_iff h.wf,
    fun id ret => findSome?_ancestors h.wf Scope.ret id ret,
    fun id hid name e s' hadd j => ?_, fun id name e pos => add_eq_error_iff,
    fun op hsilent j hj => ?_, fun parent hparent => ?_⟩
  · exact ⟨find?_add_of_sees h.wf hid hadd, fun m => find?_add_of_not h.wf hid hadd,
      returnType?_add h.wf hid hadd j⟩
  · have hview := ancestors_run h.wf op hsilent hj
    exact ⟨fun m => by rw [find?, hview, find?], by rw [returnType?, hview, returnType?]⟩
  · have hnew : ∀ ret, (s.push ⟨some parent, [], ret⟩).2.ancestors s.scopes.size =
        ⟨some parent, [], ret⟩ :: s.ancestors parent :=
      fun ret => ancestors_push h.wf hparent rfl
    refine ⟨fun m => ?_, ?_, fun ret => ⟨fun m => ?_, ?_⟩⟩
    · rw [find?, child, hnew]
      rfl
    · rw [returnType?, child, hnew]
      rfl
    · rw [find?, function, hnew]
      rfl
    · rw [returnType?, function, hnew]
      rfl

/-- A function with a block in a module that declares a name. -/
def nestedScopes : Scopes :=
  Op.run (Op.run (Op.run (Op.run initial (.child 0)) (.function 1 .string)) (.child 2))
    (.add 1 "a" ⟨.variable, .int, ⟨1, 1⟩⟩)

theorem nestedScopes_made : nestedScopes.Made :=
  .step _ (.step _ (.step _ (.step _ .initial (by decide)) (by decide)) (by decide)) (by decide)

/-- The function may declare the name too. The block then sees that declaration, and the module does
not. -/
theorem Made.lookup_laws_nested :
    nestedScopes.Made ∧ ∃ s', nestedScopes.add 2 "a" ⟨.variable, .bool, ⟨2, 1⟩⟩ = .ok s' ∧
      s'.find? 3 "a" = some ⟨.variable, .bool, ⟨2, 1⟩⟩ ∧
      s'.find? 1 "a" = nestedScopes.find? 1 "a" ∧
      s'.returnType? 3 = nestedScopes.returnType? 3 := by
  have hmade := nestedScopes_made
  have hadd := hmade.lookup_laws.2.2.2.1 2 (by decide) "a" ⟨.variable, .bool, ⟨2, 1⟩⟩ _ rfl
  refine ⟨hmade, _, rfl, (hadd 3).1 ?_, (hadd 1).2.1 "a" (.inr ?_), (hadd 3).2.2⟩
  · exact ⟨[3], .out rfl (.here 2), by simp; rfl⟩
  · rintro ⟨left, hway, -⟩
    exact absurd (hway.lt hmade.rooted.wf).1 (by decide)

end EdeLang.Scopes
