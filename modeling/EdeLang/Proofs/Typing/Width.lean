import EdeLang.Program
import EdeLang.Proofs.Syntax.Weight

/-!
# Widths of recorded types

A check keeps the weight of a tree. The types from which default values are built are those that
are written in the module, so none of their tuples and objects has more parts than the module
weighs. Types that are only inferred may be wider: a tuple of values is not written as a type.
-/

namespace EdeLang

namespace Ty

mutual

/-- The tuples and objects that a default value of the type consists of have at most so many
parts. -/
def Narrow (n : Nat) : Ty → Prop
  | .prim _ | .array _ | .func _ _ => True
  | .tuple elems => elems.length ≤ n ∧ NarrowAll n elems
  | .object _ fields => fields.length ≤ n ∧ NarrowFields n fields

def NarrowAll (n : Nat) : List Ty → Prop
  | [] => True
  | t :: ts => Narrow n t ∧ NarrowAll n ts

def NarrowFields (n : Nat) : List (String × Ty) → Prop
  | [] => True
  | (_, t) :: fields => Narrow n t ∧ NarrowFields n fields

end

end Ty

def Info.Narrow (n : Nat) (info : Info) : Prop := ∀ t, info.type = some t → t.Narrow n

namespace Expr

mutual

/-- The types whose default values the expression needs are narrow. -/
def Narrow (n : Nat) : Expr → Prop
  | .literal _ _ | .ident _ _ => True
  | .binop _ _ left right => Narrow n left ∧ Narrow n right
  | .assign _ _ value => Narrow n value
  | .array _ elems | .tuple _ elems | .call _ _ elems => NarrowAll n elems
  | .object info _ inits => info.Narrow n ∧ NarrowInits n inits
  | .default info _ => info.Narrow n

def NarrowAll (n : Nat) : List Expr → Prop
  | [] => True
  | e :: es => Narrow n e ∧ NarrowAll n es

def NarrowInits (n : Nat) : List (String × Expr) → Prop
  | [] => True
  | (_, e) :: inits => Narrow n e ∧ NarrowInits n inits

end

end Expr

namespace Stmt

mutual

def Narrow (n : Nat) : Stmt → Prop
  | .var _ _ type init =>
    type.elim True (fun t => t.info.Narrow n) ∧ init.elim True (Expr.Narrow n)
  | .expr _ e => e.Narrow n
  | .block _ stmts => NarrowAll n stmts
  | .cond _ test yes none => test.Narrow n ∧ Narrow n yes
  | .cond _ test yes (some no) => test.Narrow n ∧ Narrow n yes ∧ Narrow n no
  | .loop _ test body => test.Narrow n ∧ Narrow n body
  | .ret _ value => value.elim True (Expr.Narrow n)

def NarrowAll (n : Nat) : List Stmt → Prop
  | [] => True
  | s :: ss => Narrow n s ∧ NarrowAll n ss

end

end Stmt

namespace Scopes

variable {s s' : Scopes} {id n : Nat}

def Narrow (n : Nat) (s : Scopes) : Prop :=
  ∀ scope ∈ s.scopes, ∀ p ∈ scope.entries, p.2.kind = .typename → p.2.type.Narrow n

theorem mem_scopes_of_mem_walk {scope : Scope} (steps : Nat) (h : scope ∈ s.walk steps id) :
    scope ∈ s.scopes := by
  induction steps generalizing id with
  | zero => simp [walk] at h
  | succ steps ih =>
    rw [walk] at h
    split at h
    · simp at h
    · next found hfound =>
      rcases List.mem_cons.mp h with rfl | hrest
      · exact Array.mem_of_getElem? hfound
      · split at hrest
        · simp at hrest
        · exact ih hrest

theorem Narrow.of_find? (hs : s.Narrow n) {name : String} {e : Entry}
    (h : s.find? id name = some e) (hkind : e.kind = .typename) : e.type.Narrow n := by
  obtain ⟨scope, hscope, hfound⟩ := List.exists_of_findSome?_eq_some h
  obtain ⟨before, after, hentries, _⟩ := List.lookup_eq_some_iff.mp hfound
  have hmem : (name, e) ∈ scope.entries := by simp [hentries]
  exact hs scope (mem_scopes_of_mem_walk _ hscope) _ hmem hkind

theorem Narrow.push (hs : s.Narrow n) {scope : Scope} (hempty : scope.entries = []) :
    (s.push scope).2.Narrow n := by
  intro found hfound
  rcases Array.mem_push.mp hfound with hold | rfl
  · exact hs found hold
  · simp [hempty]

theorem Narrow.child (hs : s.Narrow n) (id : Nat) : (s.child id).2.Narrow n := hs.push rfl

theorem Narrow.add (hs : s.Narrow n) {name : String} {e : Entry}
    (he : e.kind = .typename → e.type.Narrow n) (h : s.add id name e = .ok s') : s'.Narrow n := by
  unfold Scopes.add at h
  split at h
  · cases h
  · cases h
    intro scope hscope
    obtain ⟨i, hget⟩ := Array.mem_iff_getElem?.mp hscope
    rw [Array.getElem?_modify] at hget
    split at hget
    · obtain ⟨old, hold, rfl⟩ := Option.map_eq_some_iff.mp hget
      exact List.forall_mem_cons.mpr ⟨he, hs old (Array.mem_of_getElem? hold)⟩
    · exact hs scope (Array.mem_of_getElem? hget)

theorem Narrow.add_of_ne (hs : s.Narrow n) {name : String} {e : Entry} (hkind : e.kind ≠ .typename)
    (h : s.add id name e = .ok s') : s'.Narrow n :=
  hs.add (fun htypename => absurd htypename hkind) h

theorem narrow_initial : Scopes.initial.Narrow n := by
  intro scope hscope p hp _
  obtain rfl : scope = .prelude := by simpa [Scopes.initial] using hscope
  obtain ⟨q, _, rfl⟩ := List.mem_map.mp hp
  trivial

mutual

theorem resolve_narrow (hs : s.Narrow n) : ∀ (t : TypeExpr) {t' : TypeExpr} {type : Ty},
    t.weight ≤ n → s.resolve id t = ⟨t', .ok type⟩ → t'.weight = t.weight ∧ type.Narrow n
  | .name info name, t', type, _, h => by
    rw [resolve] at h
    split at h
    · simp at h
    · next entry hentry =>
      split at h
      · next hkind =>
        obtain ⟨_, rfl, rfl⟩ := Visit.settle_eq_ok.mp h
        exact ⟨rfl, hs.of_find? hentry hkind⟩
      · simp at h
  | .array info elem, t', type, hn, h => by
    rw [resolve, Visit.andThen_eq_ok] at h
    obtain ⟨elem', _, helem, h⟩ := h
    obtain ⟨_, rfl, rfl⟩ := Visit.settle_eq_ok.mp h
    rw [TypeExpr.weight] at hn
    obtain ⟨hweight, _⟩ := resolve_narrow hs elem (by omega) helem
    exact ⟨by simp only [TypeExpr.weight, hweight], trivial⟩
  | .tuple info elems, t', type, hn, h => by
    rw [resolve, Visit.andThen_eq_ok] at h
    obtain ⟨elems', types, helems, h⟩ := h
    obtain ⟨_, rfl, rfl⟩ := Visit.settle_eq_ok.mp h
    rw [TypeExpr.weight] at hn
    obtain ⟨hweight, hlength, hnarrow⟩ := resolveAll_narrow hs elems (by omega) helems
    have hle := TypeExpr.length_le_weightAll elems
    refine ⟨by simp only [TypeExpr.weight, hweight], ?_, hnarrow⟩
    omega
  | .record info items, t', type, hn, h => by
    rw [resolve, Visit.andThen_eq_ok] at h
    obtain ⟨items', fields, hitems, h⟩ := h
    obtain ⟨_, rfl, rfl⟩ := Visit.settle_eq_ok.mp h
    rw [TypeExpr.weight] at hn
    obtain ⟨hweight, hlength, hnarrow⟩ := resolveItems_narrow hs items (by omega) hitems
    have hle := TypeExpr.length_le_weightItems items
    refine ⟨by simp only [TypeExpr.weight, hweight], ?_, hnarrow⟩
    omega

theorem resolveAll_narrow (hs : s.Narrow n) : ∀ (ts : List TypeExpr) {ts' : List TypeExpr}
    {types : List Ty}, TypeExpr.weightAll ts ≤ n → s.resolveAll id ts = ⟨ts', .ok types⟩ →
      TypeExpr.weightAll ts' = TypeExpr.weightAll ts ∧ types.length = ts.length ∧
        Ty.NarrowAll n types
  | [], ts', types, _, h => by
    simp only [resolveAll, Visit.mk.injEq, Except.ok.injEq] at h
    obtain ⟨rfl, rfl⟩ := h
    exact ⟨rfl, rfl, trivial⟩
  | t :: ts, ts', types, hn, h => by
    simp only [resolveAll, Visit.andThen_eq_ok, Visit.mk.injEq, Except.ok.injEq] at h
    obtain ⟨t', type, ht, rest, others, hrest, rfl, rfl⟩ := h
    rw [TypeExpr.weightAll] at hn
    obtain ⟨hweight, hnarrow⟩ := resolve_narrow hs t (by omega) ht
    obtain ⟨hweights, hlength, hnarrows⟩ := resolveAll_narrow hs ts (by omega) hrest
    exact ⟨by simp only [TypeExpr.weightAll, hweight, hweights], by simp [hlength],
      hnarrow, hnarrows⟩

theorem resolveItems_narrow (hs : s.Narrow n) : ∀ (items : List (Item TypeExpr))
    {items' : List (Item TypeExpr)} {fields : List (String × Ty)},
      TypeExpr.weightItems items ≤ n → s.resolveItems id items = ⟨items', .ok fields⟩ →
        TypeExpr.weightItems items' = TypeExpr.weightItems items ∧
          fields.length = items.length ∧ Ty.NarrowFields n fields
  | [], items', fields, _, h => by
    simp only [resolveItems, Visit.mk.injEq, Except.ok.injEq] at h
    obtain ⟨rfl, rfl⟩ := h
    exact ⟨rfl, rfl, trivial⟩
  | ⟨pos, name, t⟩ :: items, items', fields, hn, h => by
    simp only [resolveItems, Visit.andThen_eq_ok, Visit.mk.injEq, Except.ok.injEq] at h
    obtain ⟨t', type, ht, rest, others, hrest, rfl, rfl⟩ := h
    rw [TypeExpr.weightItems] at hn
    obtain ⟨hweight, hnarrow⟩ := resolve_narrow hs t (by omega) ht
    obtain ⟨hweights, hlength, hnarrows⟩ := resolveItems_narrow hs items (by omega) hrest
    exact ⟨by simp only [TypeExpr.weightItems, hweight, hweights], by simp [hlength],
      hnarrow, hnarrows⟩

end

theorem narrow_object (hs : s.Narrow n) {items items' : List (Item TypeExpr)}
    {fields : List (String × Ty)} (name : String) (hn : TypeExpr.weightItems items ≤ n)
    (h : s.resolveItems id items = ⟨items', .ok fields⟩) : (Ty.object name fields).Narrow n := by
  obtain ⟨_, hlength, hnarrow⟩ := resolveItems_narrow hs items hn h
  have hle := TypeExpr.length_le_weightItems items
  exact ⟨by omega, hnarrow⟩

theorem Narrow.of_object? (hs : s.Narrow n) {name : String} {type : Ty}
    (h : s.object? id name = some type) : type.Narrow n := by
  unfold object? at h
  split at h
  · next hfind =>
    cases h
    exact hs.of_find? hfind rfl
  · cases h

mutual

/-- A check of an expression keeps its weight, and the types that it records for default values
are narrow. -/
theorem checkExpr_narrow (hs : s.Narrow n) : ∀ (e : Expr) {e' : Expr} {t : Ty},
    e.weight ≤ n → s.checkExpr id e = ⟨e', .ok t⟩ → e'.weight = e.weight ∧ e'.Narrow n
  | .literal info value, e', t, _, h => by
    obtain ⟨_, rfl, rfl⟩ := Visit.settle_eq_ok.mp h
    exact ⟨rfl, trivial⟩
  | .ident info name, e', t, _, h => by
    rw [checkExpr] at h
    split at h
    · simp at h
    · obtain ⟨_, rfl, rfl⟩ := Visit.settle_eq_ok.mp h
      exact ⟨rfl, trivial⟩
  | .binop info op left right, e', t, hn, h => by
    rw [checkExpr, Visit.andThen_eq_ok] at h
    obtain ⟨left', l, hl, h⟩ := h
    rw [Visit.andThen_eq_ok] at h
    obtain ⟨right', r, hr, h⟩ := h
    rw [Expr.weight] at hn
    obtain ⟨hlw, hln⟩ := checkExpr_narrow hs left (by omega) hl
    obtain ⟨hrw, hrn⟩ := checkExpr_narrow hs right (by omega) hr
    split at h
    · obtain ⟨_, rfl, rfl⟩ := Visit.settle_eq_ok.mp h
      exact ⟨by simp only [Expr.weight, hlw, hrw], hln, hrn⟩
    · simp at h
  | .assign info name value, e', t, hn, h => by
    rw [checkExpr] at h
    split at h
    · simp at h
    · rw [Visit.andThen_eq_ok] at h
      obtain ⟨value', found, hvalue, h⟩ := h
      rw [Expr.weight] at hn
      obtain ⟨hweight, hnarrow⟩ := checkExpr_narrow hs value (by omega) hvalue
      split at h
      · obtain ⟨_, rfl, rfl⟩ := Visit.settle_eq_ok.mp h
        exact ⟨by simp only [Expr.weight, hweight], hnarrow⟩
      · simp at h
  | .array info elems, e', t, hn, h => by
    rw [checkExpr, Visit.andThen_eq_ok] at h
    obtain ⟨elems', type, helems, h⟩ := h
    rw [Expr.weight] at hn
    obtain ⟨hweight, hnarrow⟩ := checkElems_narrow hs elems (by omega) helems
    split at h
    · obtain ⟨_, rfl, rfl⟩ := Visit.settle_eq_ok.mp h
      exact ⟨by simp only [Expr.weight, hweight], hnarrow⟩
    · simp at h
  | .tuple info elems, e', t, hn, h => by
    rw [checkExpr, Visit.andThen_eq_ok] at h
    obtain ⟨elems', types, helems, h⟩ := h
    obtain ⟨_, rfl, rfl⟩ := Visit.settle_eq_ok.mp h
    rw [Expr.weight] at hn
    obtain ⟨hweight, hnarrow⟩ := checkExprs_narrow hs elems (by omega) helems
    exact ⟨by simp only [Expr.weight, hweight], hnarrow⟩
  | .object info name inits, e', t, hn, h => by
    rw [checkExpr] at h
    split at h
    · simp at h
    · next type hobject =>
      rw [Visit.andThen_eq_ok] at h
      obtain ⟨inits', _, hinits, h⟩ := h
      obtain ⟨_, rfl, rfl⟩ := Visit.settle_eq_ok.mp h
      rw [Expr.weight] at hn
      obtain ⟨hweight, hnarrow⟩ := checkInits_narrow hs inits (by omega) hinits
      refine ⟨by simp only [Expr.weight, hweight], ?_, hnarrow⟩
      intro recorded hrecorded
      cases hrecorded
      exact hs.of_object? hobject
  | .call info name args, e', t, hn, h => by
    rw [checkExpr] at h
    split at h
    · simp at h
    · next params ret _ =>
      split at h
      · next harity =>
        rw [Visit.andThen_eq_ok] at h
        obtain ⟨args', _, hargs, h⟩ := h
        obtain ⟨_, rfl, rfl⟩ := Visit.settle_eq_ok.mp h
        rw [Expr.weight] at hn
        obtain ⟨hweight, hnarrow⟩ := checkArgs_narrow hs args params (by omega) harity hargs
        exact ⟨by simp only [Expr.weight, hweight], hnarrow⟩
      · simp at h
  | .default info type, e', t, hn, h => by
    rw [checkExpr, Visit.andThen_eq_ok] at h
    obtain ⟨type', found, htype, h⟩ := h
    obtain ⟨_, rfl, rfl⟩ := Visit.settle_eq_ok.mp h
    rw [Expr.weight] at hn
    obtain ⟨hweight, hnarrow⟩ := resolve_narrow hs type (by omega) htype
    refine ⟨by simp only [Expr.weight, hweight], ?_⟩
    intro recorded hrecorded
    cases hrecorded
    exact hnarrow
termination_by structural e => e

theorem checkExprs_narrow (hs : s.Narrow n) : ∀ (es : List Expr) {es' : List Expr}
    {types : List Ty}, Expr.weightAll es ≤ n → s.checkExprs id es = ⟨es', .ok types⟩ →
      Expr.weightAll es' = Expr.weightAll es ∧ Expr.NarrowAll n es'
  | [], es', types, _, h => by
    simp only [checkExprs, Visit.mk.injEq, Except.ok.injEq] at h
    obtain ⟨rfl, rfl⟩ := h
    exact ⟨rfl, trivial⟩
  | e :: es, es', types, hn, h => by
    simp only [checkExprs, Visit.andThen_eq_ok, Visit.mk.injEq, Except.ok.injEq] at h
    obtain ⟨e', t, he, rest, ts, hes, rfl, rfl⟩ := h
    rw [Expr.weightAll] at hn
    obtain ⟨hweight, hnarrow⟩ := checkExpr_narrow hs e (by omega) he
    obtain ⟨hweights, hnarrows⟩ := checkExprs_narrow hs es (by omega) hes
    exact ⟨by simp only [Expr.weightAll, hweight, hweights], hnarrow, hnarrows⟩
termination_by structural es => es

theorem checkElems_narrow (hs : s.Narrow n) : ∀ (es : List Expr) {expected : Option Ty}
    {es' : List Expr} {type : Option Ty}, Expr.weightAll es ≤ n →
      s.checkElems id expected es = ⟨es', .ok type⟩ →
        Expr.weightAll es' = Expr.weightAll es ∧ Expr.NarrowAll n es'
  | [], expected, es', type, _, h => by
    simp only [checkElems, Visit.mk.injEq, Except.ok.injEq] at h
    obtain ⟨rfl, _⟩ := h
    exact ⟨rfl, trivial⟩
  | e :: es, expected, es', type, hn, h => by
    rw [checkElems, Visit.andThen_eq_ok] at h
    obtain ⟨e', found, he, h⟩ := h
    rw [Expr.weightAll] at hn
    obtain ⟨hweight, hnarrow⟩ := checkExpr_narrow hs e (by omega) he
    -- whatever type is expected of the rest, its elements are visited
    obtain ⟨next, rest, _, hrest, rfl⟩ : ∃ next rest type',
        s.checkElems id next es = ⟨rest, .ok type'⟩ ∧ e' :: rest = es' := by
      split at h
      · simp only [Visit.andThen_eq_ok, Visit.mk.injEq] at h
        obtain ⟨rest, type', hrest, hes', _⟩ := h
        exact ⟨_, rest, type', hrest, hes'⟩
      · split at h
        · simp only [Visit.andThen_eq_ok, Visit.mk.injEq] at h
          obtain ⟨rest, type', hrest, hes', _⟩ := h
          exact ⟨_, rest, type', hrest, hes'⟩
        · simp at h
    obtain ⟨hweights, hnarrows⟩ := checkElems_narrow hs es (by omega) hrest
    exact ⟨by simp only [Expr.weightAll, hweight, hweights], hnarrow, hnarrows⟩
termination_by structural es => es

theorem checkArgs_narrow (hs : s.Narrow n) : ∀ (es : List Expr) (params : List (String × Ty))
    {es' : List Expr} {u : Unit}, Expr.weightAll es ≤ n → params.length = es.length →
      s.checkArgs id es params = ⟨es', .ok u⟩ →
        Expr.weightAll es' = Expr.weightAll es ∧ Expr.NarrowAll n es'
  | [], params, es', _, _, harity, h => by
    obtain rfl : params = [] := List.eq_nil_of_length_eq_zero harity
    simp only [checkArgs, Visit.mk.injEq] at h
    obtain ⟨rfl, _⟩ := h
    exact ⟨rfl, trivial⟩
  | e :: es, [], es', _, _, harity, h => by simp at harity
  | e :: es, (name, expected) :: params, es', _, hn, harity, h => by
    rw [checkArgs, Visit.andThen_eq_ok] at h
    obtain ⟨e', found, he, h⟩ := h
    rw [Expr.weightAll] at hn
    obtain ⟨hweight, hnarrow⟩ := checkExpr_narrow hs e (by omega) he
    split at h
    · simp only [Visit.andThen_eq_ok, Visit.mk.injEq] at h
      obtain ⟨rest, _, hes, rfl, _⟩ := h
      obtain ⟨hweights, hnarrows⟩ :=
        checkArgs_narrow hs es params (by omega) (by simpa using harity) hes
      exact ⟨by simp only [Expr.weightAll, hweight, hweights], hnarrow, hnarrows⟩
    · simp at h
termination_by structural es => es

theorem checkInits_narrow (hs : s.Narrow n) {type : Ty} : ∀ (inits : List (String × Expr))
    {seen : List String} {inits' : List (String × Expr)} {u : Unit},
      Expr.weightInits inits ≤ n → s.checkInits id type seen inits = ⟨inits', .ok u⟩ →
        Expr.weightInits inits' = Expr.weightInits inits ∧ Expr.NarrowInits n inits'
  | [], seen, inits', _, _, h => by
    simp only [checkInits, Visit.mk.injEq] at h
    obtain ⟨rfl, _⟩ := h
    exact ⟨rfl, trivial⟩
  | (field, e) :: inits, seen, inits', _, hn, h => by
    rw [checkInits] at h
    split at h
    · simp at h
    · split at h
      · simp at h
      · rw [Visit.andThen_eq_ok] at h
        obtain ⟨e', found, he, h⟩ := h
        rw [Expr.weightInits] at hn
        obtain ⟨hweight, hnarrow⟩ := checkExpr_narrow hs e (by omega) he
        split at h
        · simp only [Visit.andThen_eq_ok, Visit.mk.injEq] at h
          obtain ⟨rest, _, hrest, rfl, _⟩ := h
          obtain ⟨hweights, hnarrows⟩ := checkInits_narrow hs inits (by omega) hrest
          exact ⟨by simp only [Expr.weightInits, hweight, hweights], hnarrow, hnarrows⟩
        · simp at h
termination_by structural inits => inits

end

theorem checkCondition_narrow (hs : s.Narrow n) {test test' : Expr} {u : Unit}
    (hn : test.weight ≤ n) (h : s.checkCondition id test = ⟨test', .ok u⟩) :
    test'.weight = test.weight ∧ test'.Narrow n := by
  rw [checkCondition, Visit.andThen_eq_ok] at h
  obtain ⟨test'', found, htest, h⟩ := h
  split at h
  · obtain rfl : test'' = test' := congrArg Visit.node h
    exact checkExpr_narrow hs test hn htest
  · simp at h

theorem optional_resolve_narrow (hs : s.Narrow n) {type type' : Option TypeExpr}
    {written : Option Ty} (hn : type.elim 0 TypeExpr.weight ≤ n)
    (h : Visit.optional (s.resolve id) type = ⟨type', .ok written⟩) :
    type'.elim 0 TypeExpr.weight = type.elim 0 TypeExpr.weight ∧
      type'.elim True (fun t => t.info.Narrow n) := by
  cases type with
  | none =>
    obtain ⟨rfl, rfl⟩ := Visit.optional_none_eq_ok.mp h
    exact ⟨rfl, trivial⟩
  | some t =>
    obtain ⟨t', found, ht, rfl, rfl⟩ := Visit.optional_some_eq_ok.mp h
    obtain ⟨hweight, hnarrow⟩ := resolve_narrow hs t hn ht
    refine ⟨hweight, ?_⟩
    intro recorded hrecorded
    rw [resolve_type ht] at hrecorded
    cases hrecorded
    exact hnarrow

theorem optional_checkExpr_narrow (hs : s.Narrow n) {value value' : Option Expr}
    {found : Option Ty} (hn : value.elim 0 Expr.weight ≤ n)
    (h : Visit.optional (s.checkExpr id) value = ⟨value', .ok found⟩) :
    value'.elim 0 Expr.weight = value.elim 0 Expr.weight ∧
      value'.elim True (Expr.Narrow n) := by
  cases value with
  | none =>
    obtain ⟨rfl, rfl⟩ := Visit.optional_none_eq_ok.mp h
    exact ⟨rfl, trivial⟩
  | some e =>
    obtain ⟨e', t, he, rfl, rfl⟩ := Visit.optional_some_eq_ok.mp h
    exact checkExpr_narrow hs e hn he

mutual

theorem checkStmt_narrow : ∀ (stmt : Stmt) {s s' : Scopes} {id : Nat} {stmt' : Stmt} {t : Ty},
    s.Narrow n → stmt.weight ≤ n → s.checkStmt id stmt = ⟨stmt', .ok (t, s')⟩ →
      stmt'.weight = stmt.weight ∧ stmt'.Narrow n ∧ s'.Narrow n
  | .var info name type init, s, s', id, stmt', t, hs, hn, h => by
    rw [checkStmt, Visit.andThen_eq_ok] at h
    obtain ⟨type', written, htype, h⟩ := h
    rw [Visit.andThen_eq_ok] at h
    obtain ⟨init', found, hinit, h⟩ := h
    rw [Stmt.weight] at hn
    obtain ⟨htw, htn⟩ := optional_resolve_narrow hs (by omega) htype
    obtain ⟨hiw, hin⟩ := optional_checkExpr_narrow hs (by omega) hinit
    split at h
    · simp at h
    · split at h
      · simp at h
      · next s₁ hadd =>
        obtain ⟨_, rfl, heq⟩ := settleStmt_eq_ok.mp h
        obtain ⟨rfl, rfl⟩ := Prod.mk.inj heq
        exact ⟨by simp only [Stmt.weight, htw, hiw], ⟨htn, hin⟩, hs.add_of_ne (by simp) hadd⟩
  | .expr info e, s, s', id, stmt', t, hs, hn, h => by
    rw [checkStmt, Visit.andThen_eq_ok] at h
    obtain ⟨e', type, he, h⟩ := h
    obtain ⟨_, rfl, heq⟩ := settleStmt_eq_ok.mp h
    obtain ⟨rfl, rfl⟩ := Prod.mk.inj heq
    rw [Stmt.weight] at hn
    obtain ⟨hweight, hnarrow⟩ := checkExpr_narrow hs e (by omega) he
    exact ⟨by simp only [Stmt.weight, hweight], hnarrow, hs⟩
  | .block info stmts, s, s', id, stmt', t, hs, hn, h => by
    rw [checkStmt, Visit.andThen_eq_ok] at h
    obtain ⟨stmts', ⟨last, s₁⟩, hstmts, h⟩ := h
    obtain ⟨_, rfl, heq⟩ := settleStmt_eq_ok.mp h
    obtain ⟨rfl, rfl⟩ := Prod.mk.inj heq
    rw [Stmt.weight] at hn
    obtain ⟨hweight, hnarrow, hs₁⟩ := checkStmts_narrow stmts (hs.child id) (by omega) hstmts
    exact ⟨by simp only [Stmt.weight, hweight], hnarrow, hs₁⟩
  | .cond info test yes none, s, s', id, stmt', t, hs, hn, h => by
    rw [checkStmt, Visit.andThen_eq_ok] at h
    obtain ⟨test', _, htest, h⟩ := h
    rw [Visit.andThen_eq_ok] at h
    obtain ⟨yes', ⟨type, s₁⟩, hyes, h⟩ := h
    obtain ⟨_, rfl, heq⟩ := settleStmt_eq_ok.mp h
    obtain ⟨rfl, rfl⟩ := Prod.mk.inj heq
    rw [Stmt.weight] at hn
    obtain ⟨htw, htn⟩ := checkCondition_narrow hs (by omega) htest
    obtain ⟨hyw, hyn, hs₁⟩ := checkStmt_narrow yes (hs.child id) (by omega) hyes
    exact ⟨by simp only [Stmt.weight, htw, hyw], ⟨htn, hyn⟩, hs₁⟩
  | .cond info test yes (some no), s, s', id, stmt', t, hs, hn, h => by
    rw [checkStmt, Visit.andThen_eq_ok] at h
    obtain ⟨test', _, htest, h⟩ := h
    rw [Visit.andThen_eq_ok] at h
    obtain ⟨yes', ⟨yesType, s₁⟩, hyes, h⟩ := h
    rw [Visit.andThen_eq_ok] at h
    obtain ⟨no', ⟨noType, s₂⟩, hno, h⟩ := h
    rw [Stmt.weight] at hn
    obtain ⟨htw, htn⟩ := checkCondition_narrow hs (by omega) htest
    obtain ⟨hyw, hyn, hs₁⟩ := checkStmt_narrow yes (hs.child id) (by omega) hyes
    obtain ⟨hnw, hnn, hs₂⟩ := checkStmt_narrow no (hs₁.child id) (by omega) hno
    simp only at h
    split at h
    · obtain ⟨_, rfl, heq⟩ := settleStmt_eq_ok.mp h
      obtain ⟨rfl, rfl⟩ := Prod.mk.inj heq
      exact ⟨by simp only [Stmt.weight, htw, hyw, hnw], ⟨htn, hyn, hnn⟩, hs₂⟩
    · simp at h
  | .loop info test body, s, s', id, stmt', t, hs, hn, h => by
    rw [checkStmt, Visit.andThen_eq_ok] at h
    obtain ⟨test', _, htest, h⟩ := h
    rw [Visit.andThen_eq_ok] at h
    obtain ⟨body', ⟨type, s₁⟩, hbody, h⟩ := h
    obtain ⟨_, rfl, heq⟩ := settleStmt_eq_ok.mp h
    obtain ⟨rfl, rfl⟩ := Prod.mk.inj heq
    rw [Stmt.weight] at hn
    obtain ⟨htw, htn⟩ := checkCondition_narrow hs (by omega) htest
    obtain ⟨hbw, hbn, hs₁⟩ := checkStmt_narrow body (hs.child id) (by omega) hbody
    exact ⟨by simp only [Stmt.weight, htw, hbw], ⟨htn, hbn⟩, hs₁⟩
  | .ret info value, s, s', id, stmt', t, hs, hn, h => by
    rw [checkStmt] at h
    split at h
    · simp at h
    · rw [Visit.andThen_eq_ok] at h
      obtain ⟨value', found, hvalue, h⟩ := h
      rw [Stmt.weight] at hn
      obtain ⟨hweight, hnarrow⟩ := optional_checkExpr_narrow hs (by omega) hvalue
      split at h
      · obtain ⟨_, rfl, heq⟩ := settleStmt_eq_ok.mp h
        obtain ⟨rfl, rfl⟩ := Prod.mk.inj heq
        exact ⟨by simp only [Stmt.weight, hweight], hnarrow, hs⟩
      · simp at h

theorem checkStmts_narrow : ∀ (stmts : List Stmt) {s s' : Scopes} {id : Nat} {last : Ty}
    {stmts' : List Stmt} {t : Ty}, s.Narrow n → Stmt.weightAll stmts ≤ n →
      s.checkStmts id last stmts = ⟨stmts', .ok (t, s')⟩ →
        Stmt.weightAll stmts' = Stmt.weightAll stmts ∧ Stmt.NarrowAll n stmts' ∧ s'.Narrow n
  | [], s, s', id, last, stmts', t, hs, _, h => by
    simp only [checkStmts, Visit.mk.injEq, Except.ok.injEq, Prod.mk.injEq] at h
    obtain ⟨rfl, _, rfl⟩ := h
    exact ⟨rfl, trivial, hs⟩
  | stmt :: stmts, s, s', id, last, stmts', t, hs, hn, h => by
    rw [checkStmts, Visit.andThen_eq_ok] at h
    obtain ⟨stmt', ⟨type, s₁⟩, hstmt, h⟩ := h
    simp only [Visit.andThen_eq_ok, Visit.mk.injEq, Except.ok.injEq] at h
    obtain ⟨rest, r, hrest, rfl, rfl⟩ := h
    rw [Stmt.weightAll] at hn
    obtain ⟨hweight, hnarrow, hs₁⟩ := checkStmt_narrow stmt hs (by omega) hstmt
    obtain ⟨hweights, hnarrows, hs₂⟩ := checkStmts_narrow stmts hs₁ (by omega) hrest
    exact ⟨by simp only [Stmt.weightAll, hweight, hweights], ⟨hnarrow, hnarrows⟩, hs₂⟩

end

theorem addParams_narrow : ∀ (items : List (Item TypeExpr)) (params : List (String × Ty))
    {s : Scopes}, s.Narrow n → s.addParams id items params = .ok s' → s'.Narrow n
  | [], params, s, hs, h => by
    obtain rfl : s = s' := by simpa [addParams] using h
    exact hs
  | item :: items, [], s, hs, h => by
    obtain rfl : s = s' := by simpa [addParams] using h
    exact hs
  | item :: items, (name, type) :: params, s, hs, h => by
    rw [addParams] at h
    split at h
    · simp at h
    · next s₁ hadd => exact addParams_narrow items params (hs.add_of_ne (by simp) hadd) h

theorem enterFunction_narrow (hs : s.Narrow n) {f : Func} {pos : Pos}
    {params : List (String × Ty)} {ret : Ty} {inner : Nat}
    (h : s.enterFunction id f pos params ret = .ok (inner, s')) : s'.Narrow n := by
  have hfunction : (s.function id ret).2.Narrow n := hs.push rfl
  rw [enterFunction] at h
  simp only at h
  split at h
  · simp at h
  · next s₁ hadd =>
    cases hparams : s₁.addParams (s.function id ret).1 f.params params with
    | error d => simp [hparams, Except.map] at h
    | ok s₂ =>
      simp only [hparams, Except.map, Except.ok.injEq, Prod.mk.injEq] at h
      obtain ⟨_, rfl⟩ := h
      exact addParams_narrow f.params params (hfunction.add_of_ne (by simp) hadd) hparams

theorem checkFunc_narrow (hs : s.Narrow n) {pos : Pos} {f f' : Func} {t : Ty} (hn : f.weight ≤ n)
    (h : s.checkFunc id pos f = ⟨f', .ok (t, s')⟩) :
    f'.weight = f.weight ∧ f'.body.Narrow n ∧ s'.Narrow n := by
  rw [Func.weight] at hn
  rw [checkFunc] at h
  split at h
  · simp at h
  · rw [Visit.andThen_eq_ok] at h
    obtain ⟨params, fields, hparams, h⟩ := h
    rw [Visit.andThen_eq_ok] at h
    obtain ⟨retExpr, type, hret, h⟩ := h
    obtain ⟨hparamsWeight, _, _⟩ := resolveItems_narrow hs f.params (by omega) hparams
    obtain ⟨hretWeight, _⟩ := resolve_narrow hs f.ret (by omega) hret
    simp only at h
    split at h
    · simp at h
    · next inner s₁ henter =>
      rw [Visit.andThen_eq_ok] at h
      obtain ⟨body, ⟨last, s₂⟩, hbody, h⟩ := h
      obtain ⟨hbodyWeight, hnarrow, hs₂⟩ :=
        checkStmt_narrow f.body (enterFunction_narrow hs henter) (by omega) hbody
      simp only at h
      split at h
      · simp at h
      · split at h
        · simp at h
        · next s₃ hadd =>
          simp only [Visit.mk.injEq, Except.ok.injEq, Prod.mk.injEq] at h
          obtain ⟨rfl, _, rfl⟩ := h
          exact ⟨by simp only [Func.weight, hparamsWeight, hretWeight, hbodyWeight], hnarrow,
            hs₂.add_of_ne (by simp) hadd⟩

theorem checkDef_narrow (hs : s.Narrow n) {d d' : Def} {t : Ty} (hn : d.weight ≤ n)
    (h : s.checkDef id d = ⟨d', .ok (t, s')⟩) :
    d'.weight = d.weight ∧ (∀ f, d'.func? = some f → f.body.Narrow n) ∧ s'.Narrow n := by
  cases d with
  | object info name items =>
    rw [checkDef] at h
    split at h
    · simp at h
    · rw [Visit.andThen_eq_ok] at h
      obtain ⟨items', fields, hitems, h⟩ := h
      split at h
      · simp at h
      · next s₁ hadd =>
        simp only [Visit.andThen_eq_ok, Visit.settle_eq_ok, Visit.mk.injEq, Except.ok.injEq,
          Prod.mk.injEq] at h
        obtain ⟨_, _, ⟨_, rfl, rfl⟩, rfl, rfl, rfl⟩ := h
        obtain ⟨hweight, _, _⟩ := resolveItems_narrow hs items hn hitems
        exact ⟨hweight, by simp [Def.func?], hs.add (fun _ => narrow_object hs name hn hitems) hadd⟩
  | func info f =>
    rw [checkDef, Visit.andThen_eq_ok] at h
    obtain ⟨f', ⟨type, s₁⟩, hf, h⟩ := h
    simp only [Visit.andThen_eq_ok, Visit.settle_eq_ok, Visit.mk.injEq, Except.ok.injEq,
      Prod.mk.injEq] at h
    obtain ⟨_, _, ⟨_, rfl, rfl⟩, rfl, rfl, rfl⟩ := h
    obtain ⟨hweight, hnarrow, hs₁⟩ := checkFunc_narrow hs hn hf
    refine ⟨hweight, ?_, hs₁⟩
    intro g hg
    obtain rfl : f' = g := by simpa [Def.func?] using hg
    exact hnarrow

theorem checkDefs_narrow : ∀ (ds : List Def) {s s' : Scopes} {ds' : List Def}, s.Narrow n →
    Def.weightAll ds ≤ n → s.checkDefs id ds = ⟨ds', .ok s'⟩ →
      Def.weightAll ds' = Def.weightAll ds ∧
        (∀ f ∈ ds'.filterMap Def.func?, f.body.Narrow n) ∧ s'.Narrow n
  | [], s, s', ds', hs, _, h => by
    simp only [checkDefs, Visit.mk.injEq, Except.ok.injEq] at h
    obtain ⟨rfl, rfl⟩ := h
    exact ⟨rfl, by simp, hs⟩
  | d :: ds, s, s', ds', hs, hn, h => by
    rw [checkDefs, Visit.andThen_eq_ok] at h
    obtain ⟨d', ⟨type, s₁⟩, hdef, h⟩ := h
    simp only [Visit.andThen_eq_ok, Visit.mk.injEq, Except.ok.injEq] at h
    obtain ⟨rest, s₂, hrest, rfl, rfl⟩ := h
    simp only [Def.weightAll, List.map_cons, List.sum_cons] at hn
    obtain ⟨hweight, hnarrow, hs₁⟩ := checkDef_narrow hs (by omega) hdef
    obtain ⟨hweights, hnarrows, hs₂⟩ :=
      checkDefs_narrow ds hs₁ (show Def.weightAll ds ≤ n by rw [Def.weightAll]; omega) hrest
    simp only [Def.weightAll] at hweights
    refine ⟨by simp only [Def.weightAll, List.map_cons, List.sum_cons, hweight, hweights], ?_, hs₂⟩
    intro f hf
    obtain ⟨g, hg, hgf⟩ := List.mem_filterMap.mp hf
    rcases List.mem_cons.mp hg with rfl | hg
    · exact hnarrow f hgf
    · exact hnarrows f (List.mem_filterMap.mpr ⟨g, hg, hgf⟩)

end Scopes

namespace Module

/-- The types whose default values a module needs are narrow. -/
structure Narrow (n : Nat) (m : Module) : Prop where
  funcs : ∀ f ∈ m.funcs, f.body.Narrow n
  stmts : Stmt.NarrowAll n m.stmts

theorem narrow_of_check {m m' : Module} {t : Ty} {n : Nat} (hn : m.weight ≤ n)
    (h : m.check = ⟨m', .ok t⟩) : m'.weight = m.weight ∧ m'.Narrow n := by
  rw [weight] at hn
  rw [check, Visit.andThen_eq_ok] at h
  obtain ⟨defs, s, hdefs, h⟩ := h
  rw [Visit.andThen_eq_ok] at h
  obtain ⟨stmts, ⟨last, s'⟩, hstmts, h⟩ := h
  split at h
  · simp at h
  · simp only [Visit.mk.injEq] at h
    obtain ⟨rfl, _⟩ := h
    have hstart : (Scopes.initial.child Scopes.preludeId).2.Narrow n :=
      Scopes.narrow_initial.child Scopes.preludeId
    obtain ⟨hdefsWeight, hfuncs, hs⟩ :=
      Scopes.checkDefs_narrow m.defs hstart (by omega) hdefs
    obtain ⟨hstmtsWeight, hnarrow, _⟩ := Scopes.checkStmts_narrow m.stmts hs (by omega) hstmts
    exact ⟨by simp only [weight, hdefsWeight, hstmtsWeight], hfuncs, hnarrow⟩

/-- A checked module weighs no more than its source text has characters, and the types whose
default values it needs are no wider. -/
theorem narrow_of_checked {name source : String} {m : Module}
    (h : Module.checked name source = .ok m) :
    m.weight ≤ source.length ∧ m.Narrow source.length := by
  unfold checked at h
  split at h
  · cases h
  · next read hread =>
    have hle := weight_le_length hread
    split at h
    · next checked t hcheck =>
      cases h
      obtain ⟨hweight, hnarrow⟩ := narrow_of_check hle hcheck
      exact ⟨by omega, hnarrow⟩
    · cases h

end Module
end EdeLang
