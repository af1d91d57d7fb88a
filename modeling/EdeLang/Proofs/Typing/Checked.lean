import EdeLang.Proofs.Typing.Inhabitants
import EdeLang.Proofs.Typing.Scopes
import EdeLang.Typing.Check
import Mathlib.Data.List.Nodup

/-!
# What a successful check establishes

The tree that a successful visit leaves follows the typing rules. Expressions are visited in
scopes that stay as they are. A statement may add a variable to its scope and leaves scopes that
model the context after it. Definitions are collected in the scope of the module, and the table
of functions that the rules read is the one that the finished module gives.
-/

namespace EdeLang

namespace Visit

variable {α β γ δ : Type}

@[simp]
theorem andThen_eq_ok {v : Visit α β} {whole : α → γ} {next : α → β → Visit γ δ} {node : γ}
    {r : δ} : v.andThen whole next = ⟨node, .ok r⟩ ↔
      ∃ n b, v = ⟨n, .ok b⟩ ∧ next n b = ⟨node, .ok r⟩ := by
  obtain ⟨n, found⟩ := v
  cases found with
  | error e => simp [andThen]
  | ok b =>
    refine ⟨fun h => ⟨n, b, rfl, h⟩, ?_⟩
    rintro ⟨n', b', heq, h⟩
    cases heq
    exact h

@[simp]
theorem settle_eq_ok {info : Info} {whole : Info → γ} {type r : Ty} {node : γ} :
    settle info whole type = ⟨node, .ok r⟩ ↔
      info.type = none ∧ whole ⟨info.pos, some type⟩ = node ∧ type = r := by
  unfold settle
  cases info.type <;> simp

@[simp]
theorem fail_eq_ok {node node' : α} {e : TypeError} {pos : Pos} {r : β} :
    (fail node e pos : Visit α β) = ⟨node', .ok r⟩ ↔ False := by
  simp [fail]

@[simp]
theorem optional_some_eq_ok {visit : α → Visit α β} {a : α} {node : Option α} {r : Option β} :
    optional visit (some a) = ⟨node, .ok r⟩ ↔
      ∃ n b, visit a = ⟨n, .ok b⟩ ∧ some n = node ∧ some b = r := by
  simp [optional]

@[simp]
theorem optional_none_eq_ok {visit : α → Visit α β} {node : Option α} {r : Option β} :
    optional visit none = ⟨node, .ok r⟩ ↔ none = node ∧ none = r := by
  simp [optional]

end Visit

namespace Scopes

variable {s s' : Scopes} {id : Nat} {sigs : Signatures} {ctx : Context} {ret : Option Ty}

theorem resolve_type {t t' : TypeExpr} {type : Ty} (h : s.resolve id t = ⟨t', .ok type⟩) :
    t'.info.type = some type := by
  cases t with
  | name info name =>
    rw [resolve] at h
    split at h
    · simp at h
    · split at h
      · obtain ⟨_, rfl, rfl⟩ := Visit.settle_eq_ok.mp h
        rfl
      · simp at h
  | array | tuple | record =>
    rw [resolve, Visit.andThen_eq_ok] at h
    obtain ⟨_, _, _, h⟩ := h
    obtain ⟨_, rfl, rfl⟩ := Visit.settle_eq_ok.mp h
    rfl

theorem resolveItems_fields : ∀ {items items' : List (Item TypeExpr)} {fields : List (String × Ty)},
    s.resolveItems id items = ⟨items', .ok fields⟩ →
      items'.map (fun item => (item.name, item.type.info.type.getD .unit)) = fields ∧
        items.map Item.name = fields.map Prod.fst
  | [], items', fields, h => by
    simp only [resolveItems, Visit.mk.injEq, Except.ok.injEq] at h
    obtain ⟨rfl, rfl⟩ := h
    simp
  | ⟨pos, name, t⟩ :: items, items', fields, h => by
    simp only [resolveItems, Visit.andThen_eq_ok, Visit.mk.injEq, Except.ok.injEq] at h
    obtain ⟨t', type, ht, rest, others, hrest, rfl, rfl⟩ := h
    obtain ⟨hfields, hnames⟩ := resolveItems_fields hrest
    simp [resolve_type ht, hfields, hnames]

private theorem find_of_variableType {name : String} {type : Ty} (ha : s.Agrees id sigs ctx)
    (h : s.variableType id name = .ok type) : ctx.find? name = some type := by
  unfold variableType at h
  split at h
  · simp at h
  · rename_i entry hentry
    split at h
    · rename_i hkind
      obtain rfl : entry.type = type := by simpa using h
      exact ha.vars hentry hkind
    · simp at h

private theorem signature_of_signature? {name : String} {params : List (String × Ty)} {type : Ty}
    (ha : s.Agrees id sigs ctx) (h : s.signature? id name = some (params, type)) :
    sigs name = some (params, type) := by
  unfold signature? at h
  split at h
  · rename_i hfind
    obtain ⟨rfl, rfl⟩ := Prod.mk.inj (Option.some.inj h)
    exact ha.declared hfind
  · simp at h

private theorem fields_of_object? {name : String} {type : Ty} (ha : s.Agrees id sigs ctx)
    (h : s.object? id name = some type) :
    ∃ fields, type = .object name fields ∧ (fields.map Prod.fst).Nodup := by
  unfold object? at h
  split at h
  · rename_i fields _ hfind
    obtain ⟨rfl, hnodup⟩ := ha.declared hfind
    exact ⟨fields, (Option.some.inj h).symm, hnodup⟩
  · simp at h

private theorem checkElems_expected : ∀ (es : List Expr) {expected : Ty} {es' : List Expr}
    {type : Option Ty}, s.checkElems id (some expected) es = ⟨es', .ok type⟩ →
      type = some expected
  | [], expected, es', type, h => by
    simp only [checkElems, Visit.mk.injEq, Except.ok.injEq] at h
    exact h.2.symm
  | e :: es, expected, es', type, h => by
    rw [checkElems, Visit.andThen_eq_ok] at h
    obtain ⟨e', found, _, h⟩ := h
    simp only at h
    split at h
    · simp only [Visit.andThen_eq_ok, Visit.mk.injEq, Except.ok.injEq] at h
      obtain ⟨rest, type', hes, _, rfl⟩ := h
      exact checkElems_expected es hes
    · simp at h

theorem checkExpr_type {e e' : Expr} {t : Ty} (h : s.checkExpr id e = ⟨e', .ok t⟩) :
    e'.info.type = some t := by
  cases e <;> simp only [checkExpr, Visit.andThen_eq_ok] at h <;>
    grind [Visit.settle_eq_ok, Visit.fail_eq_ok, Visit.andThen_eq_ok, Expr.info]

mutual

/-- A checked expression has its type by the rules. -/
theorem checkExpr_typed (ha : s.Agrees id sigs ctx) : ∀ (e : Expr) {e' : Expr} {t : Ty},
    s.checkExpr id e = ⟨e', .ok t⟩ → e'.Typed sigs ctx t
  | .literal info value, e', t, h => by
    obtain ⟨_, rfl, rfl⟩ := Visit.settle_eq_ok.mp h
    exact ⟨rfl, rfl⟩
  | .ident info name, e', t, h => by
    rw [checkExpr] at h
    split at h
    · simp at h
    · rename_i type hvar
      obtain ⟨_, rfl, rfl⟩ := Visit.settle_eq_ok.mp h
      exact ⟨rfl, find_of_variableType ha hvar⟩
  | .binop info op left right, e', t, h => by
    rw [checkExpr, Visit.andThen_eq_ok] at h
    obtain ⟨left', l, hl, h⟩ := h
    rw [Visit.andThen_eq_ok] at h
    obtain ⟨right', r, hr, h⟩ := h
    split at h
    · rename_i type htype
      obtain ⟨_, rfl, rfl⟩ := Visit.settle_eq_ok.mp h
      exact ⟨rfl, l, r, checkExpr_typed ha left hl, checkExpr_typed ha right hr, htype⟩
    · simp at h
  | .assign info name value, e', t, h => by
    rw [checkExpr] at h
    split at h
    · simp at h
    · rename_i expected hvar
      rw [Visit.andThen_eq_ok] at h
      obtain ⟨value', found, hvalue, h⟩ := h
      split at h
      · rename_i hsame
        obtain ⟨_, rfl, rfl⟩ := Visit.settle_eq_ok.mp h
        exact ⟨rfl, find_of_variableType ha hvar, found, checkExpr_typed ha value hvalue, hsame⟩
      · simp at h
  | .array info elems, e', t, h => by
    rw [checkExpr, Visit.andThen_eq_ok] at h
    obtain ⟨elems', type, helems, h⟩ := h
    split at h
    · rename_i elem
      obtain ⟨_, rfl, rfl⟩ := Visit.settle_eq_ok.mp h
      exact ⟨rfl, elem, rfl, checkElems_typed ha elems helems⟩
    · simp at h
  | .tuple info elems, e', t, h => by
    rw [checkExpr, Visit.andThen_eq_ok] at h
    obtain ⟨elems', types, helems, h⟩ := h
    obtain ⟨_, rfl, rfl⟩ := Visit.settle_eq_ok.mp h
    exact ⟨rfl, types, rfl, checkExprs_typed ha elems helems⟩
  | .object info name inits, e', t, h => by
    rw [checkExpr] at h
    split at h
    · simp at h
    · rename_i type hobject
      obtain ⟨fields, rfl, hnodup⟩ := fields_of_object? ha hobject
      rw [Visit.andThen_eq_ok] at h
      obtain ⟨inits', _, hinits, h⟩ := h
      obtain ⟨_, rfl, rfl⟩ := Visit.settle_eq_ok.mp h
      exact ⟨rfl, fields, rfl, hnodup, checkInits_typed ha inits hinits⟩
  | .call info name args, e', t, h => by
    rw [checkExpr] at h
    split at h
    · simp at h
    · rename_i params ret hsig
      split at h
      · rename_i harity
        rw [Visit.andThen_eq_ok] at h
        obtain ⟨args', _, hargs, h⟩ := h
        obtain ⟨_, rfl, rfl⟩ := Visit.settle_eq_ok.mp h
        exact ⟨rfl, params, signature_of_signature? ha hsig,
          checkArgs_typed ha args params harity hargs⟩
      · simp at h
  | .default info type, e', t, h => by
    rw [checkExpr, Visit.andThen_eq_ok] at h
    obtain ⟨type', found, _, h⟩ := h
    obtain ⟨_, rfl, rfl⟩ := Visit.settle_eq_ok.mp h
    rfl
termination_by structural e => e

theorem checkExprs_typed (ha : s.Agrees id sigs ctx) : ∀ (es : List Expr) {es' : List Expr}
    {types : List Ty}, s.checkExprs id es = ⟨es', .ok types⟩ →
      Expr.TypedAll sigs ctx es' types
  | [], es', types, h => by
    simp only [checkExprs, Visit.mk.injEq, Except.ok.injEq] at h
    obtain ⟨rfl, rfl⟩ := h
    rfl
  | e :: es, es', types, h => by
    simp only [checkExprs, Visit.andThen_eq_ok, Visit.mk.injEq, Except.ok.injEq] at h
    obtain ⟨e', t, he, rest, ts, hes, rfl, rfl⟩ := h
    exact ⟨t, ts, rfl, checkExpr_typed ha e he, checkExprs_typed ha es hes⟩
termination_by structural es => es

/-- Checked elements have a common type, which is the expected one if there is one. -/
theorem checkElems_typed (ha : s.Agrees id sigs ctx) : ∀ (es : List Expr) {expected : Option Ty}
    {es' : List Expr} {elem : Ty}, s.checkElems id expected es = ⟨es', .ok (some elem)⟩ →
      Expr.TypedEach sigs ctx elem es'
  | [], expected, es', elem, h => by
    simp only [checkElems, Visit.mk.injEq, Except.ok.injEq] at h
    obtain ⟨rfl, _⟩ := h
    trivial
  | e :: es, expected, es', elem, h => by
    rw [checkElems, Visit.andThen_eq_ok] at h
    obtain ⟨e', found, he, h⟩ := h
    split at h
    · simp only [Visit.andThen_eq_ok, Visit.mk.injEq, Except.ok.injEq] at h
      obtain ⟨rest, type, hes, rfl, rfl⟩ := h
      obtain rfl := Option.some.inj (checkElems_expected es hes)
      exact ⟨⟨_, checkExpr_typed ha e he, Ty.same_self _⟩, checkElems_typed ha es hes⟩
    · rename_i type
      split at h
      · rename_i hsame
        simp only [Visit.andThen_eq_ok, Visit.mk.injEq, Except.ok.injEq] at h
        obtain ⟨rest, type', hes, rfl, rfl⟩ := h
        obtain rfl := Option.some.inj (checkElems_expected es hes)
        exact ⟨⟨found, checkExpr_typed ha e he, hsame⟩, checkElems_typed ha es hes⟩
      · simp at h
termination_by structural es => es

theorem checkArgs_typed (ha : s.Agrees id sigs ctx) : ∀ (es : List Expr)
    (params : List (String × Ty)) {es' : List Expr} {u : Unit}, params.length = es.length →
      s.checkArgs id es params = ⟨es', .ok u⟩ → Expr.TypedArgs sigs ctx es' params
  | [], params, es', _, harity, h => by
    obtain rfl : params = [] := List.eq_nil_of_length_eq_zero harity
    simp only [checkArgs, Visit.mk.injEq] at h
    obtain ⟨rfl, _⟩ := h
    rfl
  | e :: es, [], es', _, harity, h => by simp at harity
  | e :: es, (name, expected) :: params, es', _, harity, h => by
    rw [checkArgs, Visit.andThen_eq_ok] at h
    obtain ⟨e', found, he, h⟩ := h
    split at h
    · rename_i hsame
      simp only [Visit.andThen_eq_ok, Visit.mk.injEq] at h
      obtain ⟨rest, _, hes, rfl, _⟩ := h
      exact ⟨_, params, found, rfl, checkExpr_typed ha e he, hsame,
        checkArgs_typed ha es params (by simpa using harity) hes⟩
    · simp at h
termination_by structural es => es

theorem checkInits_typed (ha : s.Agrees id sigs ctx) {name : String}
    {fields : List (String × Ty)} : ∀ (inits : List (String × Expr)) {seen : List String}
      {inits' : List (String × Expr)} {u : Unit},
      s.checkInits id (.object name fields) seen inits = ⟨inits', .ok u⟩ →
        Expr.TypedInits sigs ctx fields inits'
  | [], seen, inits', _, h => by
    simp only [checkInits, Visit.mk.injEq] at h
    obtain ⟨rfl, _⟩ := h
    trivial
  | (field, e) :: inits, seen, inits', _, h => by
    rw [checkInits] at h
    split at h
    · simp at h
    · split at h
      · simp at h
      · rename_i expected hfield
        rw [Visit.andThen_eq_ok] at h
        obtain ⟨e', found, he, h⟩ := h
        split at h
        · rename_i hsame
          simp only [Visit.andThen_eq_ok, Visit.mk.injEq] at h
          obtain ⟨rest, _, hinits, rfl, _⟩ := h
          exact ⟨⟨expected, found, hfield, checkExpr_typed ha e he, hsame⟩,
            checkInits_typed ha inits hinits⟩
        · simp at h
termination_by structural inits => inits

end

private theorem checkCondition_typed {test test' : Expr} {u : Unit} (ha : s.Agrees id sigs ctx)
    (h : s.checkCondition id test = ⟨test', .ok u⟩) : test'.Typed sigs ctx .bool := by
  rw [checkCondition, Visit.andThen_eq_ok] at h
  obtain ⟨test'', found, htest, h⟩ := h
  split at h
  · rename_i hsame
    obtain rfl : test'' = test' := congrArg Visit.node h
    obtain rfl : found = .bool := Ty.eq_prim_of_same hsame
    exact checkExpr_typed ha test htest
  · simp at h

@[simp]
theorem settleStmt_eq_ok {info : Info} {whole : Info → Stmt} {type : Ty} {stmt : Stmt}
    {r : Ty × Scopes} : s.settleStmt info whole type = ⟨stmt, .ok r⟩ ↔
      info.type = none ∧ whole ⟨info.pos, some type⟩ = stmt ∧ (type, s) = r := by
  simp only [settleStmt, Visit.andThen_eq_ok, Visit.settle_eq_ok, Visit.mk.injEq, Except.ok.injEq]
  grind

/-- What holds after a checked statement: its rules, and scopes that model the context after
it. -/
structure Leaves (s : Scopes) (id : Nat) (ctx : Context) (ret : Option Ty) (stmt : Stmt)
    (s' : Scopes) : Prop where
  models : s'.Models id (stmt.declare ctx) ret
  grows : s.Grows id s'
  typed : ∀ sigs, Scope.AllFit sigs (s.ancestors id) → stmt.Typed sigs ret ctx

private theorem recorded_of_declared {type : Option TypeExpr} {init : Option Expr}
    {type' : Option TypeExpr} {init' : Option Expr} {written found : Option Ty} {t : Ty}
    (htype : Visit.optional (s.resolve id) type = ⟨type', .ok written⟩)
    (hinit : Visit.optional (s.checkExpr id) init = ⟨init', .ok found⟩)
    (h : declaredType written found = .ok t) :
    recordedType type' init' = some t ∧
      ∀ sigs ctx, s.Agrees id sigs ctx → InitTyped sigs ctx t init' := by
  have hwritten : (type'.bind fun t => t.info.type) = written := by
    cases type with
    | none =>
      obtain ⟨rfl, rfl⟩ := Visit.optional_none_eq_ok.mp htype
      rfl
    | some _ =>
      obtain ⟨n, b, hn, rfl, rfl⟩ := Visit.optional_some_eq_ok.mp htype
      exact resolve_type hn
  cases init with
  | none =>
    obtain ⟨rfl, rfl⟩ := Visit.optional_none_eq_ok.mp hinit
    cases written with
    | none => simp [declaredType] at h
    | some w =>
      obtain rfl : w = t := by simpa [declaredType] using h
      exact ⟨by simp [recordedType, hwritten], fun _ _ _ => trivial⟩
  | some e =>
    obtain ⟨e', b, he, rfl, rfl⟩ := Visit.optional_some_eq_ok.mp hinit
    have htyped := fun sigs ctx (ha : s.Agrees id sigs ctx) => checkExpr_typed ha e he
    cases written with
    | none =>
      obtain rfl : b = t := by simpa [declaredType] using h
      exact ⟨by simp [recordedType, hwritten, checkExpr_type he],
        fun sigs ctx ha => ⟨b, htyped sigs ctx ha, Ty.same_self b⟩⟩
    | some w =>
      simp only [declaredType] at h
      split at h
      · rename_i hsame
        obtain rfl : w = t := by simpa using h
        exact ⟨by simp [recordedType, hwritten], fun sigs ctx ha => ⟨b, htyped sigs ctx ha, hsame⟩⟩
      · simp at h

mutual

/-- A checked statement follows the rules, and the scopes after it model the context after it. -/
theorem checkStmt_typed : ∀ (stmt : Stmt) {s : Scopes} {id : Nat} {ctx : Context} {stmt' : Stmt}
    {t : Ty} {s' : Scopes}, s.Models id ctx ret →
      s.checkStmt id stmt = ⟨stmt', .ok (t, s')⟩ → s.Leaves id ctx ret stmt' s'
  | .var info name type init, s, id, ctx, stmt', t, s', hm, h => by
    rw [checkStmt, Visit.andThen_eq_ok] at h
    obtain ⟨type', written, htype, h⟩ := h
    rw [Visit.andThen_eq_ok] at h
    obtain ⟨init', found, hinit, h⟩ := h
    split at h
    · simp at h
    · rename_i declared hdeclared
      split at h
      · simp at h
      · rename_i s₁ hadd
        obtain ⟨_, rfl, heq⟩ := settleStmt_eq_ok.mp h
        obtain ⟨rfl, rfl⟩ := Prod.mk.inj heq
        obtain ⟨hrecorded, hinit⟩ := recorded_of_declared htype hinit hdeclared
        obtain ⟨hm', hgrows⟩ := hm.declare hadd
        exact ⟨by simpa [Stmt.declare, hrecorded] using hm', hgrows,
          fun sigs hfit => ⟨declared, hrecorded, hinit sigs ctx (hm.agrees hfit)⟩⟩
  | .expr info e, s, id, ctx, stmt', t, s', hm, h => by
    rw [checkStmt, Visit.andThen_eq_ok] at h
    obtain ⟨e', type, he, h⟩ := h
    obtain ⟨_, rfl, heq⟩ := settleStmt_eq_ok.mp h
    obtain ⟨rfl, rfl⟩ := Prod.mk.inj heq
    exact ⟨hm, .refl s id, fun sigs hfit => ⟨type, checkExpr_typed (hm.agrees hfit) e he⟩⟩
  | .block info stmts, s, id, ctx, stmt', t, s', hm, h => by
    rw [checkStmt, Visit.andThen_eq_ok] at h
    obtain ⟨stmts', ⟨last, s₁⟩, hstmts, h⟩ := h
    obtain ⟨_, rfl, heq⟩ := settleStmt_eq_ok.mp h
    obtain ⟨rfl, rfl⟩ := Prod.mk.inj heq
    obtain ⟨⟨_, hinner⟩, hgrows, htyped⟩ := checkStmts_typed stmts hm.child hstmts
    obtain ⟨hm', hgrows'⟩ := hm.leave hinner hgrows
    exact ⟨hm', hgrows', fun sigs hfit => htyped sigs (hm.allFit_child hfit)⟩
  | .cond info test yes none, s, id, ctx, stmt', t, s', hm, h => by
    rw [checkStmt, Visit.andThen_eq_ok] at h
    obtain ⟨test', _, htest, h⟩ := h
    rw [Visit.andThen_eq_ok] at h
    obtain ⟨yes', ⟨type, s₁⟩, hyes, h⟩ := h
    obtain ⟨_, rfl, heq⟩ := settleStmt_eq_ok.mp h
    obtain ⟨rfl, rfl⟩ := Prod.mk.inj heq
    have hinner := checkStmt_typed yes hm.child hyes
    obtain ⟨hm', hgrows⟩ := hm.leave hinner.models hinner.grows
    exact ⟨hm', hgrows, fun sigs hfit => ⟨checkCondition_typed (hm.agrees hfit) htest,
      hinner.typed sigs (hm.allFit_child hfit)⟩⟩
  | .cond info test yes (some no), s, id, ctx, stmt', t, s', hm, h => by
    rw [checkStmt, Visit.andThen_eq_ok] at h
    obtain ⟨test', _, htest, h⟩ := h
    rw [Visit.andThen_eq_ok] at h
    obtain ⟨yes', ⟨yesType, s₁⟩, hyes, h⟩ := h
    rw [Visit.andThen_eq_ok] at h
    obtain ⟨no', ⟨noType, s₂⟩, hno, h⟩ := h
    have hyesInner := checkStmt_typed yes hm.child hyes
    obtain ⟨hm₁, hgrows₁⟩ := hm.leave hyesInner.models hyesInner.grows
    have hnoInner := checkStmt_typed no hm₁.child hno
    obtain ⟨hm₂, hgrows₂⟩ := hm₁.leave hnoInner.models hnoInner.grows
    simp only at h
    split at h
    · obtain ⟨_, rfl, heq⟩ := settleStmt_eq_ok.mp h
      obtain ⟨rfl, rfl⟩ := Prod.mk.inj heq
      exact ⟨hm₂, hgrows₁.trans hgrows₂, fun sigs hfit =>
        ⟨checkCondition_typed (hm.agrees hfit) htest,
          hyesInner.typed sigs (hm.allFit_child hfit),
          hnoInner.typed sigs (hm₁.allFit_child (hgrows₁.fit sigs hfit))⟩⟩
    · simp at h
  | .loop info test body, s, id, ctx, stmt', t, s', hm, h => by
    rw [checkStmt, Visit.andThen_eq_ok] at h
    obtain ⟨test', _, htest, h⟩ := h
    rw [Visit.andThen_eq_ok] at h
    obtain ⟨body', ⟨type, s₁⟩, hbody, h⟩ := h
    obtain ⟨_, rfl, heq⟩ := settleStmt_eq_ok.mp h
    obtain ⟨rfl, rfl⟩ := Prod.mk.inj heq
    have hinner := checkStmt_typed body hm.child hbody
    obtain ⟨hm', hgrows⟩ := hm.leave hinner.models hinner.grows
    exact ⟨hm', hgrows, fun sigs hfit => ⟨checkCondition_typed (hm.agrees hfit) htest,
      hinner.typed sigs (hm.allFit_child hfit)⟩⟩
  | .ret info value, s, id, ctx, stmt', t, s', hm, h => by
    rw [checkStmt, hm.result] at h
    split at h
    · simp at h
    · rename_i expected
      rw [Visit.andThen_eq_ok] at h
      obtain ⟨value', found, hvalue, h⟩ := h
      split at h
      · rename_i hsame
        obtain ⟨_, rfl, heq⟩ := settleStmt_eq_ok.mp h
        obtain ⟨rfl, rfl⟩ := Prod.mk.inj heq
        refine ⟨hm, .refl s id, fun sigs hfit => ?_⟩
        cases value with
        | none =>
          obtain ⟨rfl, rfl⟩ := Visit.optional_none_eq_ok.mp hvalue
          exact ⟨expected, rfl, hsame⟩
        | some e =>
          obtain ⟨e', type, he, rfl, rfl⟩ := Visit.optional_some_eq_ok.mp hvalue
          exact ⟨expected, type, rfl, checkExpr_typed (hm.agrees hfit) e he, hsame⟩
      · simp at h

theorem checkStmts_typed : ∀ (stmts : List Stmt) {s : Scopes} {id : Nat} {ctx : Context}
    {last : Ty} {stmts' : List Stmt} {t : Ty} {s' : Scopes}, s.Models id ctx ret →
      s.checkStmts id last stmts = ⟨stmts', .ok (t, s')⟩ →
        (∃ ctx', s'.Models id ctx' ret) ∧ s.Grows id s' ∧
          ∀ sigs, Scope.AllFit sigs (s.ancestors id) → Stmt.TypedAll sigs ret ctx stmts'
  | [], s, id, ctx, last, stmts', t, s', hm, h => by
    simp only [checkStmts, Visit.mk.injEq, Except.ok.injEq, Prod.mk.injEq] at h
    obtain ⟨rfl, rfl, rfl⟩ := h
    exact ⟨⟨ctx, hm⟩, .refl s id, fun _ _ => trivial⟩
  | stmt :: stmts, s, id, ctx, last, stmts', t, s', hm, h => by
    rw [checkStmts, Visit.andThen_eq_ok] at h
    obtain ⟨stmt', ⟨type, s₁⟩, hstmt, h⟩ := h
    simp only [Visit.andThen_eq_ok, Visit.mk.injEq, Except.ok.injEq] at h
    obtain ⟨rest, r, hrest, rfl, rfl⟩ := h
    have hfirst := checkStmt_typed stmt hm hstmt
    obtain ⟨hm', hgrows, htyped⟩ := checkStmts_typed stmts hfirst.models hrest
    exact ⟨hm', hfirst.grows.trans hgrows, fun sigs hfit =>
      ⟨hfirst.typed sigs hfit, htyped sigs (hfirst.grows.fit sigs hfit)⟩⟩

end

end Scopes

/-- What a checked definition declares in the scope of the module. -/
def Def.declaration : Def → String × Entry
  | .object info name _ => (name, ⟨.typename, info.type.getD .unit, info.pos⟩)
  | .func info f => (f.name, ⟨.function, info.type.getD .unit, info.pos⟩)

def Def.Annotated : Def → Prop
  | .object info name items =>
    ∃ fields, info.type = some (.object name fields) ∧ items.map Item.name = fields.map Prod.fst
  | .func info f => info.type = some (.func f.signature.1 f.signature.2)

def Def.DistinctFields : Def → Prop
  | .object _ _ items => (items.map Item.name).Nodup
  | .func _ _ => True

namespace Scopes

/-- The scope of the module during the check of its definitions, and the scopes around it. -/
structure Defining (s : Scopes) (id : Nat) (scope : Scope) (outer : List Scope) : Prop where
  wf : s.WF
  here : s.get? id = some scope
  view : s.ancestors id = scope :: outer
  novars : ∀ sc ∈ scope :: outer, sc.vars = []

section Definitions

variable {s s' : Scopes} {id : Nat} {scope : Scope} {outer : List Scope}

theorem Defining.of_same (h : s.Defining id scope outer) (hwf : s'.WF)
    (hsame : ∀ j ≤ id, s'.get? j = s.get? j) : s'.Defining id scope outer :=
  ⟨hwf, hsame id (Nat.le_refl id) ▸ h.here, ancestors_congr h.wf hsame ▸ h.view, h.novars⟩

theorem Defining.add {name : String} {e : Entry} (h : s.Defining id scope outer)
    (hkind : e.kind ≠ .variable) (hadd : s.add id name e = .ok s') :
    s'.Defining id (scope.declare name e) outer ∧ scope.find? name = none := by
  obtain ⟨hnew, hid, _, _⟩ := add_ok hadd h.here
  refine ⟨⟨h.wf.add hadd h.here, hid, ancestors_add h.wf hadd h.here h.view, ?_⟩, hnew⟩
  refine List.forall_mem_cons.mpr ⟨?_, fun sc hsc => h.novars sc (List.mem_cons_of_mem _ hsc)⟩
  rw [Scope.vars_declare_of_ne hkind]
  exact h.novars scope List.mem_cons_self

theorem Defining.function {name : String} {e : Entry} {type : Ty}
    (h : s.Defining id scope outer) (hkind : e.kind ≠ .variable)
    (hadd : (s.function id type).2.add s.scopes.size name e = .ok s') :
    s'.Models s.scopes.size [[]] (some type) ∧
      (∀ j < s.scopes.size, s'.get? j = s.get? j) ∧ s.scopes.size < s'.scopes.size ∧
      s'.ancestors s.scopes.size =
        Scope.declare ⟨some id, [], some type⟩ name e :: scope :: outer := by
  have hlt := lt_of_get? h.here
  have hwf : (s.function id type).2.WF := h.wf.push fun parent hp => by
    obtain rfl : id = parent := by simpa using hp
    exact hlt
  have hhere : (s.function id type).2.get? s.scopes.size = some ⟨some id, [], some type⟩ := by
    simp [Scopes.function, get?_push]
  have hview : (s.function id type).2.ancestors s.scopes.size =
      ⟨some id, [], some type⟩ :: scope :: outer := h.view ▸ ancestors_push h.wf hlt rfl
  obtain ⟨_, hid, hother, hsize⟩ := add_ok hadd hhere
  have hnew := ancestors_add hwf hadd hhere hview
  refine ⟨⟨hwf.add hadd hhere, ⟨_, [], scope :: outer, hid, hnew, ?_, h.novars⟩, ?_⟩, ?_, ?_, hnew⟩
  · rw [Scope.vars_declare_of_ne hkind]
    rfl
  · rw [returnType?, hnew]
    rfl
  · intro j hj
    rw [hother j (by omega)]
    exact get?_push_of_lt hj
  · rw [hsize]
    simp [Scopes.function]

theorem addParams_models {ret : Option Ty} : ∀ (items : List (Item TypeExpr))
    (params : List (String × Ty)) {s : Scopes} {vars : List (String × Ty)},
      items.length = params.length → s.Models id [vars] ret →
        s.addParams id items params = .ok s' →
          s'.Models id [params.reverse ++ vars] ret ∧ s.Grows id s'
  | [], params, s, vars, hlength, hm, h => by
    obtain rfl : params = [] := List.eq_nil_of_length_eq_zero hlength.symm
    obtain rfl : s = s' := by simpa [addParams] using h
    exact ⟨hm, .refl s id⟩
  | _ :: _, [], _, _, hlength, _, _ => by simp at hlength
  | item :: items, (name, type) :: params, s, vars, hlength, hm, h => by
    rw [addParams] at h
    split at h
    · simp at h
    · rename_i s₁ hadd
      obtain ⟨hm₁, hgrows₁⟩ := hm.declare hadd
      obtain ⟨hm₂, hgrows₂⟩ := addParams_models items params (by simpa using hlength) hm₁ h
      exact ⟨by simpa using hm₂, hgrows₁.trans hgrows₂⟩

theorem enterFunction_models {f : Func} {pos : Pos} {params : List (String × Ty)} {type : Ty}
    {inner : Nat} (hd : s.Defining id scope outer) (hlength : f.params.length = params.length)
    (h : s.enterFunction id f pos params type = .ok (inner, s')) :
    inner = s.scopes.size ∧ s'.Models inner [params.reverse] (some type) ∧
      (∀ j < s.scopes.size, s'.get? j = s.get? j) ∧ s.scopes.size < s'.scopes.size ∧
      ∀ sigs, sigs f.name = some (params, type) → Scope.AllFit sigs (scope :: outer) →
        Scope.AllFit sigs (s'.ancestors inner) := by
  have hinner : (s.function id type).1 = s.scopes.size := rfl
  rw [enterFunction] at h
  simp only [hinner] at h
  split at h
  · simp at h
  · rename_i s₁ hadd
    cases hparams : s₁.addParams s.scopes.size f.params params with
    | error d => simp [hparams, Except.map] at h
    | ok s₂ =>
      simp only [hparams, Except.map, Except.ok.injEq, Prod.mk.injEq] at h
      obtain ⟨rfl, rfl⟩ := h
      obtain ⟨hm₁, hsame₁, hsize₁, hview₁⟩ := hd.function (by simp) hadd
      obtain ⟨hm₂, hgrows⟩ := addParams_models f.params params hlength hm₁ hparams
      refine ⟨rfl, by simpa using hm₂, fun j hj => ?_, Nat.lt_of_lt_of_le hsize₁ hgrows.size_le,
        fun sigs hsig hfit => hgrows.fit sigs ?_⟩
      · rw [hgrows.same j (by omega) (by omega), hsame₁ j hj]
      · rw [hview₁, Scope.allFit_declare]
        exact ⟨hsig, List.forall_mem_cons.mpr ⟨by simp, hfit⟩⟩

private theorem returns_of_missingReturn {f : Func} {type : Ty}
    (h : missingReturn? f type = none) : type = .unit ∨ f.body.fallsOff? = none := by
  unfold missingReturn? at h
  split at h
  · rename_i hsame
    exact .inl (Ty.eq_prim_of_same hsame)
  · exact .inr (by simpa using h)

/-- A checked function is declared with its signature. It follows the rules in every table that
agrees with the declarations so far. -/
theorem checkFunc_typed {pos : Pos} {f f' : Func} {t : Ty} (hd : s.Defining id scope outer)
    (h : s.checkFunc id pos f = ⟨f', .ok (t, s')⟩) :
    t = .func f'.signature.1 f'.signature.2 ∧ scope.find? f'.name = none ∧
      s'.Defining id (scope.declare f'.name ⟨.function, t, pos⟩) outer ∧
      ∀ sigs, Scope.AllFit sigs (scope.declare f'.name ⟨.function, t, pos⟩ :: outer) →
        f'.Typed sigs := by
  rw [checkFunc] at h
  split at h
  · simp at h
  · rw [Visit.andThen_eq_ok] at h
    obtain ⟨params, fields, hparams, h⟩ := h
    rw [Visit.andThen_eq_ok] at h
    obtain ⟨retExpr, type, hret, h⟩ := h
    obtain ⟨hfields, _⟩ := resolveItems_fields hparams
    have hretType := resolve_type hret
    simp only at h
    split at h
    · simp at h
    · rename_i inner s₁ henter
      rw [Visit.andThen_eq_ok] at h
      obtain ⟨body, ⟨last, s₂⟩, hbody, h⟩ := h
      simp only at h
      split at h
      · simp at h
      · rename_i hreturns
        split at h
        · simp at h
        · rename_i s₃ hadd
          simp only [Visit.mk.injEq, Except.ok.injEq, Prod.mk.injEq] at h
          obtain ⟨rfl, rfl, rfl⟩ := h
          have hsignature : Func.signature ⟨f.name, params, retExpr, body⟩ = (fields, type) := by
            simp [Func.signature, hfields, hretType]
          obtain ⟨rfl, hm₁, hsame₁, hsize₁, hfit₁⟩ := enterFunction_models hd
            (by simp [← hfields]) henter
          have hleaves := checkStmt_typed f.body hm₁ hbody
          have hlt := lt_of_get? hd.here
          have hd₂ : s₂.Defining id scope outer := hd.of_same hleaves.models.wf fun j hj => by
            rw [hleaves.grows.same j (by omega) (by omega), hsame₁ j (by omega)]
          obtain ⟨hd₃, hnew⟩ := hd₂.add (by simp) hadd
          refine ⟨by rw [hsignature], hnew, hd₃, fun sigs hfit => ?_⟩
          obtain ⟨hsig, hfit⟩ := Scope.allFit_declare.mp hfit
          refine ⟨?_, ?_, ?_⟩
          · rw [hsignature]
            exact hretType
          · rw [hsignature]
            exact hleaves.typed sigs (hfit₁ sigs hsig hfit)
          · rw [hsignature]
            exact returns_of_missingReturn hreturns

theorem checkDef_typed {d d' : Def} {t : Ty} (hd : s.Defining id scope outer)
    (h : s.checkDef id d = ⟨d', .ok (t, s')⟩) :
    s'.Defining id (scope.declare d'.declaration.1 d'.declaration.2) outer ∧
      scope.find? d'.declaration.1 = none ∧ d'.Annotated ∧
      (d.DistinctFields → d'.DistinctFields) ∧
      ∀ sigs, Scope.AllFit sigs (scope.declare d'.declaration.1 d'.declaration.2 :: outer) →
        ∀ f, d'.func? = some f → f.Typed sigs := by
  cases d with
  | object info name items =>
    rw [checkDef] at h
    split at h
    · simp at h
    · rw [Visit.andThen_eq_ok] at h
      obtain ⟨items', fields, hitems, h⟩ := h
      obtain ⟨hfields, hnames⟩ := resolveItems_fields hitems
      split at h
      · simp at h
      · rename_i s₁ hadd
        simp only [Visit.andThen_eq_ok, Visit.settle_eq_ok, Visit.mk.injEq, Except.ok.injEq,
          Prod.mk.injEq] at h
        obtain ⟨_, _, ⟨_, rfl, rfl⟩, rfl, rfl, rfl⟩ := h
        obtain ⟨hd₁, hnew⟩ := hd.add (by simp) hadd
        have hnames' : items'.map Item.name = fields.map Prod.fst := by simp [← hfields]
        refine ⟨hd₁, hnew, ⟨fields, rfl, hnames'⟩, fun hdistinct => ?_, by simp [Def.func?]⟩
        show (items'.map Item.name).Nodup
        rw [hnames', ← hnames]
        exact hdistinct
  | func info f =>
    rw [checkDef, Visit.andThen_eq_ok] at h
    obtain ⟨f', ⟨type, s₁⟩, hf, h⟩ := h
    simp only [Visit.andThen_eq_ok, Visit.settle_eq_ok, Visit.mk.injEq, Except.ok.injEq,
      Prod.mk.injEq] at h
    obtain ⟨_, _, ⟨_, rfl, rfl⟩, rfl, rfl, rfl⟩ := h
    obtain ⟨rfl, hnew, hd₁, htyped⟩ := checkFunc_typed hd hf
    refine ⟨hd₁, hnew, rfl, fun _ => trivial, fun sigs hfit g hg => ?_⟩
    obtain rfl : f' = g := by simpa [Def.func?] using hg
    exact htyped sigs hfit

end Definitions

end Scopes

/-- The scope with the declarations of some definitions, the last of which comes first. -/
def Scope.declareAll (scope : Scope) (ds : List Def) : Scope :=
  { scope with entries := (ds.map Def.declaration).reverse ++ scope.entries }

theorem Scope.declareAll_cons (scope : Scope) (d : Def) (ds : List Def) :
    scope.declareAll (d :: ds) =
      (scope.declare d.declaration.1 d.declaration.2).declareAll ds := by
  simp [declareAll, declare]

private theorem Scope.allFit_of_declareAll {sigs : Signatures} {scope : Scope} {ds : List Def}
    {outer : List Scope} (h : AllFit sigs (scope.declareAll ds :: outer)) :
    AllFit sigs (scope :: outer) := by
  rw [AllFit, List.forall_mem_cons] at h ⊢
  exact ⟨fun p hp => h.1 p (List.mem_append_right _ hp), h.2⟩

theorem Scopes.checkDefs_typed {id : Nat} {outer : List Scope} : ∀ (ds : List Def) {s s' : Scopes}
    {scope : Scope} {ds' : List Def}, s.Defining id scope outer →
      s.checkDefs id ds = ⟨ds', .ok s'⟩ →
        s'.Defining id (scope.declareAll ds') outer ∧
          ((scope.entries.map Prod.fst).Nodup →
            ((scope.declareAll ds').entries.map Prod.fst).Nodup) ∧
          (∀ d ∈ ds', d.Annotated) ∧
          ((∀ d ∈ ds, d.DistinctFields) → ∀ d ∈ ds', d.DistinctFields) ∧
          ∀ sigs, Scope.AllFit sigs (scope.declareAll ds' :: outer) →
            ∀ f ∈ ds'.filterMap Def.func?, f.Typed sigs
  | [], s, s', scope, ds', hd, h => by
    simp only [checkDefs, Visit.mk.injEq, Except.ok.injEq] at h
    obtain ⟨rfl, rfl⟩ := h
    exact ⟨hd, fun h => h, by simp, by simp, by simp⟩
  | d :: ds, s, s', scope, ds', hd, h => by
    rw [checkDefs, Visit.andThen_eq_ok] at h
    obtain ⟨d', ⟨type, s₁⟩, hdef, h⟩ := h
    simp only [Visit.andThen_eq_ok, Visit.mk.injEq, Except.ok.injEq] at h
    obtain ⟨rest, s₂, hrest, rfl, rfl⟩ := h
    obtain ⟨hd₁, hnew, hann, hdistinct, htyped⟩ := checkDef_typed hd hdef
    obtain ⟨hd₂, hnodup, hanns, hdistincts, htypeds⟩ := checkDefs_typed ds hd₁ hrest
    rw [Scope.declareAll_cons]
    refine ⟨hd₂, fun hn => hnodup ?_, ?_, ?_, fun sigs hfit f hf => ?_⟩
    · have hfresh : d'.declaration.1 ∉ scope.entries.map Prod.fst := by
        rintro hmem
        obtain ⟨p, hp, heq⟩ := List.mem_map.mp hmem
        simpa [heq] using List.lookup_eq_none_iff.mp hnew p hp
      exact List.nodup_cons.mpr ⟨hfresh, hn⟩
    · exact List.forall_mem_cons.mpr ⟨hann, hanns⟩
    · intro h
      obtain ⟨hhead, htail⟩ := List.forall_mem_cons.mp h
      exact List.forall_mem_cons.mpr ⟨hdistinct hhead, hdistincts htail⟩
    · obtain ⟨g, hg, hgf⟩ := List.mem_filterMap.mp hf
      rcases List.mem_cons.mp hg with rfl | hg
      · exact htyped sigs (Scope.allFit_of_declareAll hfit) f hgf
      · exact htypeds sigs hfit f (List.mem_filterMap.mpr ⟨g, hg, hgf⟩)

/-- The definitions of objects give their fields different names. -/
def Module.DistinctFields (m : Module) : Prop := ∀ d ∈ m.defs, d.DistinctFields

theorem Module.func?_eq_some {m : Module} {f : Func} (hnodup : (m.funcs.map Func.name).Nodup)
    (hf : f ∈ m.funcs) : m.func? f.name = some f := by
  unfold func?
  cases hfind : m.funcs.reverse.find? (fun g => g.name == f.name) with
  | none =>
    have := List.find?_eq_none.mp hfind f (List.mem_reverse.mpr hf)
    simp at this
  | some g =>
    have hname : g.name = f.name := by simpa using List.find?_some hfind
    have hg : g ∈ m.funcs := List.mem_reverse.mp (List.mem_of_find?_eq_some hfind)
    rw [List.inj_on_of_nodup_map hnodup hg hf hname]

private theorem funcNames_sublist (ds : List Def) :
    ((ds.filterMap Def.func?).map Func.name).Sublist (ds.map fun d => d.declaration.1) := by
  induction ds with
  | nil => simp
  | cons d ds ih =>
    cases d with
    | object info name items => exact ih.cons name
    | func info f => exact ih.cons_cons f.name

private theorem Module.fits_declaration {m : Module} {d : Def}
    (hnodup : (m.funcs.map Func.name).Nodup) (hd : d ∈ m.defs) (hann : d.Annotated)
    (hdistinct : d.DistinctFields) :
    d.declaration.2.Fits m.signatures d.declaration.1 := by
  cases d with
  | object info name items =>
    obtain ⟨fields, htype, hnames⟩ := hann
    simp only [Def.declaration, htype, Option.getD_some, Entry.Fits, true_and]
    exact hnames ▸ hdistinct
  | func info f =>
    have hf : f ∈ m.funcs := List.mem_filterMap.mpr ⟨_, hd, rfl⟩
    simp only [Def.Annotated] at hann
    simp [Def.declaration, hann, Entry.Fits, signatures, func?_eq_some hnodup hf]

private theorem Scopes.defining_initial : (Scopes.initial.child Scopes.preludeId).2.Defining
    (Scopes.initial.child Scopes.preludeId).1 ⟨some 0, [], none⟩ [Scope.prelude] := by
  have hwf : Scopes.initial.WF := by
    intro id scope hscope parent hp
    have hlt := lt_of_get? hscope
    obtain rfl : id = 0 := by simp [Scopes.initial] at hlt; omega
    obtain rfl : Scope.prelude = scope := by simpa [Scopes.initial, Scopes.get?] using hscope
    simp [Scope.prelude] at hp
  have hview : (Scopes.initial.push ⟨some 0, [], none⟩).2.ancestors 1 =
      ⟨some 0, [], none⟩ :: Scopes.initial.ancestors 0 := ancestors_push hwf Nat.one_pos rfl
  refine ⟨hwf.push ?_, rfl, hview, ?_⟩
  · intro parent hp
    obtain rfl : 0 = parent := by simpa [Scopes.preludeId] using hp
    decide
  · exact List.forall_mem_cons.mpr ⟨rfl, List.forall_mem_singleton.mpr rfl⟩

/-- A checked module follows the rules, if its objects have fields of different names. -/
theorem Module.typed_of_check {m m' : Module} {t : Ty} (hdistinct : m.DistinctFields)
    (h : m.check = ⟨m', .ok t⟩) : m'.Typed := by
  rw [check, Visit.andThen_eq_ok] at h
  obtain ⟨defs, s, hdefs, h⟩ := h
  rw [Visit.andThen_eq_ok] at h
  obtain ⟨stmts, ⟨last, s'⟩, hstmts, h⟩ := h
  split at h
  · simp at h
  · simp only [Visit.mk.injEq] at h
    obtain ⟨rfl, _⟩ := h
    obtain ⟨hd, hnodup, hann, hfields, htyped⟩ :=
      Scopes.checkDefs_typed m.defs Scopes.defining_initial hdefs
    have hnodup' : ((defs.filterMap Def.func?).map Func.name).Nodup := by
      refine (funcNames_sublist defs).nodup ?_
      simpa [Scope.declareAll, Function.comp_def] using hnodup List.nodup_nil
    have hfit : Scope.AllFit (Module.signatures ⟨m.name, defs, stmts, some .unit⟩)
        (Scope.declareAll ⟨some 0, [], none⟩ defs :: [Scope.prelude]) := by
      refine List.forall_mem_cons.mpr ⟨fun p hp => ?_, ?_⟩
      · obtain ⟨d, hd, rfl⟩ : ∃ d ∈ defs, d.declaration = p := by
          simpa [Scope.declareAll] using hp
        exact Module.fits_declaration hnodup' hd (hann d hd) (hfields hdistinct d hd)
      · rw [List.forall_mem_singleton]
        intro p hp
        obtain ⟨q, _, rfl⟩ := List.mem_map.mp hp
        trivial
    have hm : s.Models (Scopes.initial.child Scopes.preludeId).1 [[]] none := by
      refine ⟨hd.wf, ⟨_, [], [Scope.prelude], hd.here, hd.view, ?_, ?_⟩, ?_⟩
      · rw [hd.novars _ List.mem_cons_self]
        rfl
      · exact fun sc hsc => hd.novars sc (List.mem_cons_of_mem _ hsc)
      · rw [Scopes.returnType?, hd.view]
        rfl
    obtain ⟨_, _, hstmtsTyped⟩ := Scopes.checkStmts_typed m.stmts hm hstmts
    exact ⟨hnodup', htyped _ hfit, hstmtsTyped _ (hd.view ▸ hfit)⟩

end EdeLang
