import EdeLang.Evaluation.Eval
import EdeLang.Typing.FlowGraph
import Mathlib.Data.List.Forall2

/-!
# Typing rules of annotated trees

The rules read the types that a checked tree carries. Variables are looked up in a stack of open
scopes, functions in a table of signatures. A statement is typed in the scopes before it, and a
declaration adds its variable to the innermost scope with the type that was recorded for it.
-/

namespace EdeLang

/-- Types of variables in all open scopes, the innermost scope and the latest variable first. -/
abbrev Context := List (List (String × Ty))

namespace Context

def find? (ctx : Context) (name : String) : Option Ty :=
  ctx.findSome? fun scope => scope.lookup name

def bind (name : String) (type : Ty) : Context → Context
  | [] => []
  | scope :: ctx => ((name, type) :: scope) :: ctx

def names (ctx : Context) : List String := ctx.flatten.map Prod.fst

@[simp]
theorem names_enter (ctx : Context) : names ([] :: ctx) = names ctx := rfl

@[simp]
theorem names_bind (name : String) (type : Ty) (scope : List (String × Ty)) (ctx : Context) :
    names (bind name type (scope :: ctx)) = name :: names (scope :: ctx) := rfl

end Context

/-- The parameters and result types of functions. -/
abbrev Signatures := String → Option (List (String × Ty) × Ty)

mutual

/-- The expression has the type, which it carries. -/
def Expr.Typed (sigs : Signatures) (ctx : Context) : Expr → Ty → Prop
  | .literal info value, t => info.type = some t ∧ t = value.type
  | .ident info name, t => info.type = some t ∧ ctx.find? name = some t
  | .binop info op left right, t =>
    info.type = some t ∧ ∃ l r, Expr.Typed sigs ctx left l ∧ Expr.Typed sigs ctx right r ∧
      op.resultType l r = some t
  | .assign info name value, t =>
    info.type = some t ∧ ctx.find? name = some t ∧
      ∃ found, Expr.Typed sigs ctx value found ∧ Ty.same t found = true
  | .array info elems, t =>
    info.type = some t ∧ ∃ elem, t = .array elem ∧ Expr.TypedEach sigs ctx elem elems
  | .tuple info elems, t =>
    info.type = some t ∧ ∃ types, t = .tuple types ∧ Expr.TypedAll sigs ctx elems types
  | .object info name inits, t =>
    info.type = some t ∧ ∃ fields, t = .object name fields ∧ (fields.map Prod.fst).Nodup ∧
      Expr.TypedInits sigs ctx fields inits
  | .call info name args, t =>
    info.type = some t ∧ ∃ params, sigs name = some (params, t) ∧
      Expr.TypedArgs sigs ctx args params
  | .default info _, t => info.type = some t

def Expr.TypedEach (sigs : Signatures) (ctx : Context) (elem : Ty) : List Expr → Prop
  | [] => True
  | e :: es =>
    (∃ found, Expr.Typed sigs ctx e found ∧ Ty.same elem found = true) ∧
      Expr.TypedEach sigs ctx elem es

def Expr.TypedAll (sigs : Signatures) (ctx : Context) : List Expr → List Ty → Prop
  | [], types => types = []
  | e :: es, types =>
    ∃ t ts, types = t :: ts ∧ Expr.Typed sigs ctx e t ∧ Expr.TypedAll sigs ctx es ts

def Expr.TypedArgs (sigs : Signatures) (ctx : Context) :
    List Expr → List (String × Ty) → Prop
  | [], params => params = []
  | e :: es, params =>
    ∃ p ps found, params = p :: ps ∧ Expr.Typed sigs ctx e found ∧
      Ty.same found p.2 = true ∧ Expr.TypedArgs sigs ctx es ps

/-- Every initialiser names a field and has its type. -/
def Expr.TypedInits (sigs : Signatures) (ctx : Context) (fields : List (String × Ty)) :
    List (String × Expr) → Prop
  | [] => True
  | (field, e) :: inits =>
    (∃ expected found, fields.lookup field = some expected ∧ Expr.Typed sigs ctx e found ∧
      Ty.same found expected = true) ∧ Expr.TypedInits sigs ctx fields inits

end

/-- The type that was recorded for a declared variable: the written one, or that of its initial
value. -/
def recordedType (type : Option TypeExpr) (init : Option Expr) : Option Ty :=
  (type.bind fun t => t.info.type).or (init.bind fun e => e.info.type)

/-- The initial value, if it is given, has the type. -/
def InitTyped (sigs : Signatures) (ctx : Context) (t : Ty) : Option Expr → Prop
  | none => True
  | some e => ∃ found, e.Typed sigs ctx found ∧ Ty.same t found = true

/-- The scopes after a statement. -/
def Stmt.declare (ctx : Context) : Stmt → Context
  | .var _ name type init =>
    match recordedType type init with
    | some t => ctx.bind name t
    | none => ctx
  | _ => ctx

/-- A statement can only change the innermost scope. -/
theorem Stmt.declare_cons (s : Stmt) (vars : List (String × Ty)) (ctx : Context) :
    ∃ vars', s.declare (vars :: ctx) = vars' :: ctx := by
  cases s with
  | var info name type init =>
    cases hrecorded : recordedType type init with
    | some t => exact ⟨(name, t) :: vars, by simp [Stmt.declare, hrecorded, Context.bind]⟩
    | none => exact ⟨vars, by simp [Stmt.declare, hrecorded]⟩
  | _ => exact ⟨vars, rfl⟩

def Stmt.declareAll (ctx : Context) (ss : List Stmt) : Context :=
  ss.foldl (fun ctx s => s.declare ctx) ctx

theorem Stmt.declareAll_cons (ss : List Stmt) (vars : List (String × Ty)) (ctx : Context) :
    ∃ vars', Stmt.declareAll (vars :: ctx) ss = vars' :: ctx := by
  induction ss generalizing vars with
  | nil => exact ⟨vars, rfl⟩
  | cons s ss ih =>
    obtain ⟨vars₁, hvars₁⟩ := s.declare_cons vars ctx
    obtain ⟨vars₂, hvars₂⟩ := ih vars₁
    exact ⟨vars₂, by rw [← hvars₂, ← hvars₁]; rfl⟩

mutual

/-- The statement follows the rules in the body of a function with a result type, or outside of
functions. -/
def Stmt.Typed (sigs : Signatures) (ret : Option Ty) (ctx : Context) : Stmt → Prop
  | .var _ _ type init =>
    ∃ t, recordedType type init = some t ∧ InitTyped sigs ctx t init
  | .expr _ e => ∃ t, e.Typed sigs ctx t
  | .block _ stmts => Stmt.TypedAll sigs ret ([] :: ctx) stmts
  | .cond _ test yes none => test.Typed sigs ctx .bool ∧ Stmt.Typed sigs ret ([] :: ctx) yes
  | .cond _ test yes (some no) =>
    test.Typed sigs ctx .bool ∧ Stmt.Typed sigs ret ([] :: ctx) yes ∧
      Stmt.Typed sigs ret ([] :: ctx) no
  | .loop _ test body => test.Typed sigs ctx .bool ∧ Stmt.Typed sigs ret ([] :: ctx) body
  | .ret _ none => ∃ t, ret = some t ∧ Ty.same .unit t = true
  | .ret _ (some e) => ∃ t found, ret = some t ∧ e.Typed sigs ctx found ∧ Ty.same found t = true

def Stmt.TypedAll (sigs : Signatures) (ret : Option Ty) (ctx : Context) : List Stmt → Prop
  | [] => True
  | s :: ss => Stmt.Typed sigs ret ctx s ∧ Stmt.TypedAll sigs ret (s.declare ctx) ss

end

def Func.signature (f : Func) : List (String × Ty) × Ty :=
  (f.params.map fun item => (item.name, item.type.info.type.getD .unit),
    f.ret.info.type.getD .unit)

/-- The function follows the rules: its body does in the scope of its parameters, and it cannot
end without a result. -/
structure Func.Typed (sigs : Signatures) (f : Func) : Prop where
  ret : f.ret.info.type = some f.signature.2
  body : f.body.Typed sigs (some f.signature.2) [f.signature.1.reverse]
  returns : f.signature.2 = .unit ∨ f.body.fallsOff? = none

def Module.signatures (m : Module) : Signatures := fun name =>
  (m.func? name).map Func.signature

/-- The module follows the rules. -/
structure Module.Typed (m : Module) : Prop where
  distinct : (m.funcs.map Func.name).Nodup
  funcs : ∀ f ∈ m.funcs, f.Typed m.signatures
  stmts : Stmt.TypedAll m.signatures none [[]] m.stmts

theorem Expr.Typed.type_eq {sigs : Signatures} {ctx : Context} {e : Expr} {t : Ty}
    (h : e.Typed sigs ctx t) : e.info.type = some t := by
  cases e <;> simp only [Expr.Typed] at h
  case default => exact h
  all_goals exact h.1

theorem Module.exists_func_of_signature {m : Module} {name : String} {params : List (String × Ty)}
    {ret : Ty} (h : m.signatures name = some (params, ret)) :
    ∃ f ∈ m.funcs, f.name = name ∧ params.length = f.params.length := by
  obtain ⟨f, hf, hsig⟩ := Option.map_eq_some_iff.mp h
  refine ⟨f, List.mem_reverse.mp (List.mem_of_find?_eq_some hf), ?_, ?_⟩
  · simpa using List.find?_some hf
  · have hparams : f.signature.1 = params := by rw [hsig]
    rw [← hparams, Func.signature, List.length_map]

theorem Expr.TypedEach.exists_types {sigs : Signatures} {ctx : Context} {elem : Ty} :
    ∀ {es : List Expr}, Expr.TypedEach sigs ctx elem es →
      ∃ types, Expr.TypedAll sigs ctx es types ∧ ∀ t ∈ types, Ty.same elem t = true
  | [], _ => ⟨[], rfl, by simp⟩
  | _ :: _, ⟨⟨t, ht, hsame⟩, hes⟩ => by
    obtain ⟨types, htypes, hall⟩ := Expr.TypedEach.exists_types hes
    exact ⟨t :: types, ⟨t, types, rfl, ht, htypes⟩, List.forall_mem_cons.mpr ⟨hsame, hall⟩⟩

theorem Expr.TypedAll.length_eq {sigs : Signatures} {ctx : Context} {es : List Expr}
    {types : List Ty} (h : Expr.TypedAll sigs ctx es types) : es.length = types.length := by
  induction es generalizing types with
  | nil =>
    cases h
    rfl
  | cons e es ih =>
    obtain ⟨t, ts, rfl, _, hes⟩ := h
    rw [List.length_cons, List.length_cons, ih hes]

theorem Expr.TypedArgs.exists_types {sigs : Signatures} {ctx : Context} :
    ∀ {es : List Expr} {params : List (String × Ty)}, Expr.TypedArgs sigs ctx es params →
      ∃ types, Expr.TypedAll sigs ctx es types ∧
        List.Forall₂ (fun t p => Ty.same t p.2 = true) types params
  | [], _, rfl => ⟨[], rfl, .nil⟩
  | _ :: _, _, ⟨p, ps, t, rfl, ht, hsame, hes⟩ => by
    obtain ⟨types, htypes, hall⟩ := Expr.TypedArgs.exists_types hes
    exact ⟨t :: types, ⟨t, types, rfl, ht, htypes⟩, .cons hsame hall⟩

end EdeLang
