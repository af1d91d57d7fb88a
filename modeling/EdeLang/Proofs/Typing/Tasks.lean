import EdeLang.Proofs.Syntax.Nodes
import Mathlib.Data.List.Forall2

/-!
# Visits of nodes

The check of a module visits its nodes in scopes that depend on the visits before. A check that
succeeds has visited every node once, and has left on it the type that its visit returned.
-/

namespace EdeLang

structure Task where
  scopes : Scopes
  id : Nat
  node : Node

namespace Node

/-- The visit of a node. -/
def visit (s : Scopes) (id : Nat) : Node → Visit Node Ty
  | .type t => (s.resolve id t).andThen .type fun t b => ⟨.type t, .ok b⟩
  | .expr e => (s.checkExpr id e).andThen .expr fun e b => ⟨.expr e, .ok b⟩
  | .stmt st => (s.checkStmt id st).andThen .stmt fun st b => ⟨.stmt st, .ok b.1⟩
  | .definition d => (s.checkDef id d).andThen .definition fun d b => ⟨.definition d, .ok b.1⟩
  | .module m => m.check.andThen .module fun m b => ⟨.module m, .ok b⟩

def Recorded (s : Scopes) (id : Nat) (n n' : Node) : Prop :=
  ∃ type, n.visit s id = ⟨n', .ok type⟩ ∧ n'.cell = some type

end Node

namespace Task

def allIn (s : Scopes) (id : Nat) (nodes : List Node) : List Task := nodes.map (Task.mk s id)

/-- The tasks are the visits of some nodes, and what each leaves is as recorded. -/
structure Records (tasks : List Task) (nodes nodes' : List Node) : Prop where
  nodes_eq : tasks.map Task.node = nodes
  recorded : List.Forall₂ (fun task => task.node.Recorded task.scopes task.id) tasks nodes'

def after {α β : Type} (v : Visit α (β × Scopes)) (rest : Scopes → List Task) : List Task :=
  match v.found with
  | .ok (_, s) => rest s
  | .error _ => []

section Records

variable {tasks tasks' : List Task} {first first' second second' nodes nodes' : List Node}
  {s : Scopes} {id : Nat}

theorem Records.cons {n n' : Node} (h : n.Recorded s id n') (hs : Records tasks nodes nodes') :
    Records (⟨s, id, n⟩ :: tasks) (n :: nodes) (n' :: nodes') :=
  ⟨congrArg (n :: ·) hs.nodes_eq, .cons h hs.recorded⟩

theorem Records.append (h : Records tasks first first') (h' : Records tasks' second second') :
    Records (tasks ++ tasks') (first ++ second) (first' ++ second') := by
  refine ⟨?_, List.rel_append h.recorded h'.recorded⟩
  rw [List.map_append, h.nodes_eq, h'.nodes_eq]

theorem records_allIn (h : List.Forall₂ (Node.Recorded s id) nodes nodes') :
    Records (allIn s id nodes) nodes nodes' := by
  refine ⟨by simp [allIn, Function.comp_def], ?_⟩
  rw [allIn, List.forall₂_map_left_iff]
  exact h

@[simp]
theorem after_ok {α β : Type} (a : α) (b : β) (rest : Scopes → List Task) :
    after ⟨a, .ok (b, s)⟩ rest = rest s := rfl

end Records

end Task

namespace Stmt

mutual

/-- The visits that the visit of a statement makes, its own first. -/
def tasks (s : Scopes) (id : Nat) : Stmt → List Task
  | .block info body =>
    ⟨s, id, .stmt (.block info body)⟩ :: tasksAll (s.child id).2 (s.child id).1 body
  | .cond info test yes none =>
    ⟨s, id, .stmt (.cond info test yes none)⟩ :: (Task.allIn s id test.nodes ++
      tasks (s.child id).2 (s.child id).1 yes)
  | .cond info test yes (some no) =>
    ⟨s, id, .stmt (.cond info test yes (some no))⟩ :: (Task.allIn s id test.nodes ++
      tasks (s.child id).2 (s.child id).1 yes ++
      Task.after ((s.child id).2.checkStmt (s.child id).1 yes) fun s =>
        tasks (s.child id).2 (s.child id).1 no)
  | .loop info test body =>
    ⟨s, id, .stmt (.loop info test body)⟩ :: (Task.allIn s id test.nodes ++
      tasks (s.child id).2 (s.child id).1 body)
  | .var info name type init => Task.allIn s id (nodes (.var info name type init))
  | .expr info e => Task.allIn s id (nodes (.expr info e))
  | .ret info value => Task.allIn s id (nodes (.ret info value))

def tasksAll (s : Scopes) (id : Nat) : List Stmt → List Task
  | [] => []
  | st :: sts => tasks s id st ++ Task.after (s.checkStmt id st) fun s => tasksAll s id sts

end

end Stmt

def Func.tasks (s : Scopes) (id : Nat) (pos : Pos) (f : Func) : List Task :=
  Task.allIn s id (TypeExpr.nodesItems f.params ++ f.ret.nodes) ++
    match (s.resolveItems id f.params).found, (s.resolve id f.ret).found with
    | .ok fields, .ok ret =>
      match s.enterFunction id ⟨f.name, (s.resolveItems id f.params).node,
        (s.resolve id f.ret).node, f.body⟩ pos fields ret with
      | .ok (inner, s) => f.body.tasks s inner
      | .error _ => []
    | _, _ => []

namespace Def

def tasks (s : Scopes) (id : Nat) : Def → List Task
  | .object info name fields => Task.allIn s id (nodes (.object info name fields))
  | .func info f => ⟨s, id, .definition (.func info f)⟩ :: f.tasks s id info.pos

def tasksAll (s : Scopes) (id : Nat) : List Def → List Task
  | [] => []
  | d :: ds => tasks s id d ++ Task.after (s.checkDef id d) fun s => tasksAll s id ds

end Def

/-- The visits that the check of a module makes, in front of each those of its parts. -/
def Module.tasks (m : Module) : List Task :=
  let (id, s) := Scopes.initial.child Scopes.preludeId
  ⟨Scopes.initial, Scopes.preludeId, .module m⟩ :: (Def.tasksAll s id m.defs ++
    match (s.checkDefs id m.defs).found with
    | .ok s => Stmt.tasksAll s id m.stmts
    | .error _ => [])

namespace Scopes

open Node List

variable {s s' : Scopes} {id : Nat}

theorem recorded_type {t t' : TypeExpr} {type : Ty} (h : s.resolve id t = ⟨t', .ok type⟩) :
    Recorded s id (.type t) (.type t') := by
  refine ⟨type, ?_, resolve_type h⟩
  simp [visit, h]

theorem recorded_expr {e e' : Expr} {type : Ty} (h : s.checkExpr id e = ⟨e', .ok type⟩) :
    Recorded s id (.expr e) (.expr e') := by
  refine ⟨type, ?_, checkExpr_type h⟩
  simp [visit, h]

mutual

theorem resolve_recorded (t : TypeExpr) {t' : TypeExpr} {type : Ty}
    (h : s.resolve id t = ⟨t', .ok type⟩) : Forall₂ (Recorded s id) t.nodes t'.nodes := by
  have hself := recorded_type h
  cases t with
  | name info n =>
    rw [resolve] at h
    split at h
    · simp at h
    · split at h
      · obtain ⟨_, rfl, rfl⟩ := Visit.settle_eq_ok.mp h
        exact .cons hself .nil
      · simp at h
  | array info elem =>
    rw [resolve, Visit.andThen_eq_ok] at h
    obtain ⟨elem', inner, helem, h⟩ := h
    obtain ⟨_, rfl, rfl⟩ := Visit.settle_eq_ok.mp h
    exact .cons hself (resolve_recorded elem helem)
  | tuple info elems =>
    rw [resolve, Visit.andThen_eq_ok] at h
    obtain ⟨elems', types, helems, h⟩ := h
    obtain ⟨_, rfl, rfl⟩ := Visit.settle_eq_ok.mp h
    exact .cons hself (resolveAll_recorded elems helems)
  | record info items =>
    rw [resolve, Visit.andThen_eq_ok] at h
    obtain ⟨items', fields, hitems, h⟩ := h
    obtain ⟨_, rfl, rfl⟩ := Visit.settle_eq_ok.mp h
    exact .cons hself (resolveItems_recorded items hitems)
termination_by structural t

theorem resolveAll_recorded (ts : List TypeExpr) {ts' : List TypeExpr} {types : List Ty}
    (h : s.resolveAll id ts = ⟨ts', .ok types⟩) :
    Forall₂ (Recorded s id) (TypeExpr.nodesAll ts) (TypeExpr.nodesAll ts') := by
  cases ts with
  | nil =>
    simp only [resolveAll, Visit.mk.injEq] at h
    obtain ⟨rfl, _⟩ := h
    exact .nil
  | cons t ts =>
    simp only [resolveAll, Visit.andThen_eq_ok, Visit.mk.injEq] at h
    obtain ⟨t', type, ht, rest, others, hrest, rfl, _⟩ := h
    exact rel_append (resolve_recorded t ht) (resolveAll_recorded ts hrest)
termination_by structural ts

theorem resolveItems_recorded (items : List (Item TypeExpr)) {items' : List (Item TypeExpr)}
    {fields : List (String × Ty)} (h : s.resolveItems id items = ⟨items', .ok fields⟩) :
    Forall₂ (Recorded s id) (TypeExpr.nodesItems items) (TypeExpr.nodesItems items') := by
  cases items with
  | nil =>
    simp only [resolveItems, Visit.mk.injEq] at h
    obtain ⟨rfl, _⟩ := h
    exact .nil
  | cons item items =>
    obtain ⟨pos, name, t⟩ := item
    simp only [resolveItems, Visit.andThen_eq_ok, Visit.mk.injEq] at h
    obtain ⟨t', type, ht, rest, others, hrest, rfl, _⟩ := h
    exact rel_append (resolve_recorded t ht) (resolveItems_recorded items hrest)
termination_by structural items

end

mutual

theorem checkExpr_recorded (e : Expr) {e' : Expr} {type : Ty}
    (h : s.checkExpr id e = ⟨e', .ok type⟩) : Forall₂ (Recorded s id) e.nodes e'.nodes := by
  have hself := recorded_expr h
  cases e with
  | literal info value =>
    obtain ⟨_, rfl, rfl⟩ := Visit.settle_eq_ok.mp h
    exact .cons hself .nil
  | ident info name =>
    rw [checkExpr] at h
    split at h
    · simp at h
    · obtain ⟨_, rfl, rfl⟩ := Visit.settle_eq_ok.mp h
      exact .cons hself .nil
  | binop info op left right =>
    rw [checkExpr, Visit.andThen_eq_ok] at h
    obtain ⟨left', l, hl, h⟩ := h
    rw [Visit.andThen_eq_ok] at h
    obtain ⟨right', r, hr, h⟩ := h
    split at h
    · obtain ⟨_, rfl, rfl⟩ := Visit.settle_eq_ok.mp h
      exact .cons hself (rel_append (checkExpr_recorded left hl) (checkExpr_recorded right hr))
    · simp at h
  | assign info name value =>
    rw [checkExpr] at h
    split at h
    · simp at h
    · rw [Visit.andThen_eq_ok] at h
      obtain ⟨value', found, hvalue, h⟩ := h
      split at h
      · obtain ⟨_, rfl, rfl⟩ := Visit.settle_eq_ok.mp h
        exact .cons hself (checkExpr_recorded value hvalue)
      · simp at h
  | array info elems =>
    rw [checkExpr, Visit.andThen_eq_ok] at h
    obtain ⟨elems', elem, helems, h⟩ := h
    split at h
    · obtain ⟨_, rfl, rfl⟩ := Visit.settle_eq_ok.mp h
      exact .cons hself (checkElems_recorded elems helems)
    · simp at h
  | tuple info elems =>
    rw [checkExpr, Visit.andThen_eq_ok] at h
    obtain ⟨elems', types, helems, h⟩ := h
    obtain ⟨_, rfl, rfl⟩ := Visit.settle_eq_ok.mp h
    exact .cons hself (checkExprs_recorded elems helems)
  | object info name inits =>
    rw [checkExpr] at h
    split at h
    · simp at h
    · rw [Visit.andThen_eq_ok] at h
      obtain ⟨inits', _, hinits, h⟩ := h
      obtain ⟨_, rfl, rfl⟩ := Visit.settle_eq_ok.mp h
      exact .cons hself (checkInits_recorded inits hinits)
  | call info name args =>
    rw [checkExpr] at h
    split at h
    · simp at h
    · split at h
      · rename_i harity
        rw [Visit.andThen_eq_ok] at h
        obtain ⟨args', _, hargs, h⟩ := h
        obtain ⟨_, rfl, rfl⟩ := Visit.settle_eq_ok.mp h
        exact .cons hself (checkArgs_recorded args _ harity hargs)
      · simp at h
  | default info t =>
    rw [checkExpr, Visit.andThen_eq_ok] at h
    obtain ⟨t', found, ht, h⟩ := h
    obtain ⟨_, rfl, rfl⟩ := Visit.settle_eq_ok.mp h
    exact .cons hself (resolve_recorded t ht)
termination_by structural e

theorem checkExprs_recorded (es : List Expr) {es' : List Expr} {types : List Ty}
    (h : s.checkExprs id es = ⟨es', .ok types⟩) :
    Forall₂ (Recorded s id) (Expr.nodesAll es) (Expr.nodesAll es') := by
  cases es with
  | nil =>
    simp only [checkExprs, Visit.mk.injEq] at h
    obtain ⟨rfl, _⟩ := h
    exact .nil
  | cons e es =>
    simp only [checkExprs, Visit.andThen_eq_ok, Visit.mk.injEq] at h
    obtain ⟨e', type, he, rest, others, hrest, rfl, _⟩ := h
    exact rel_append (checkExpr_recorded e he) (checkExprs_recorded es hrest)
termination_by structural es

theorem checkElems_recorded (es : List Expr) {expected : Option Ty} {es' : List Expr}
    {type : Option Ty} (h : s.checkElems id expected es = ⟨es', .ok type⟩) :
    Forall₂ (Recorded s id) (Expr.nodesAll es) (Expr.nodesAll es') := by
  cases es with
  | nil =>
    simp only [checkElems, Visit.mk.injEq] at h
    obtain ⟨rfl, _⟩ := h
    exact .nil
  | cons e es =>
    rw [checkElems, Visit.andThen_eq_ok] at h
    obtain ⟨e', found, he, h⟩ := h
    cases expected with
    | none =>
      simp only [Visit.andThen_eq_ok, Visit.mk.injEq] at h
      obtain ⟨rest, _, hrest, rfl, _⟩ := h
      exact rel_append (checkExpr_recorded e he) (checkElems_recorded es hrest)
    | some expected =>
      simp only at h
      split at h
      · simp only [Visit.andThen_eq_ok, Visit.mk.injEq] at h
        obtain ⟨rest, _, hrest, rfl, _⟩ := h
        exact rel_append (checkExpr_recorded e he) (checkElems_recorded es hrest)
      · simp at h
termination_by structural es

theorem checkArgs_recorded (es : List Expr) (params : List (String × Ty))
    (harity : params.length = es.length) {es' : List Expr}
    (h : s.checkArgs id es params = ⟨es', .ok ()⟩) :
    Forall₂ (Recorded s id) (Expr.nodesAll es) (Expr.nodesAll es') := by
  cases es with
  | nil =>
    rw [checkArgs] at h
    · simp only [Visit.mk.injEq] at h
      obtain ⟨rfl, _⟩ := h
      exact .nil
    · simp
  | cons e es =>
    cases params with
    | nil => simp at harity
    | cons param params =>
      obtain ⟨name, expected⟩ := param
      rw [checkArgs, Visit.andThen_eq_ok] at h
      obtain ⟨e', found, he, h⟩ := h
      split at h
      · simp only [Visit.andThen_eq_ok, Visit.mk.injEq] at h
        obtain ⟨rest, _, hrest, rfl, _⟩ := h
        exact rel_append (checkExpr_recorded e he)
          (checkArgs_recorded es params (by simpa using harity) hrest)
      · simp at h
termination_by structural es

theorem checkInits_recorded (inits : List (String × Expr)) {type : Ty} {seen : List String}
    {inits' : List (String × Expr)} (h : s.checkInits id type seen inits = ⟨inits', .ok ()⟩) :
    Forall₂ (Recorded s id) (Expr.nodesInits inits) (Expr.nodesInits inits') := by
  cases inits with
  | nil =>
    simp only [checkInits, Visit.mk.injEq] at h
    obtain ⟨rfl, _⟩ := h
    exact .nil
  | cons init inits =>
    obtain ⟨field, e⟩ := init
    rw [checkInits] at h
    split at h
    · simp at h
    · split at h
      · simp at h
      · rw [Visit.andThen_eq_ok] at h
        obtain ⟨e', found, he, h⟩ := h
        split at h
        · simp only [Visit.andThen_eq_ok, Visit.mk.injEq] at h
          obtain ⟨rest, _, hrest, rfl, _⟩ := h
          exact rel_append (checkExpr_recorded e he) (checkInits_recorded inits hrest)
        · simp at h
termination_by structural inits

end

theorem recorded_stmt {st st' : Stmt} {type : Ty} (h : s.checkStmt id st = ⟨st', .ok (type, s')⟩)
    (hcell : st'.info.type = some type) : Recorded s id (.stmt st) (.stmt st') := by
  refine ⟨type, ?_, hcell⟩
  simp [visit, h]

theorem checkCondition_recorded {test test' : Expr}
    (h : s.checkCondition id test = ⟨test', .ok ()⟩) :
    Forall₂ (Recorded s id) test.nodes test'.nodes := by
  rw [checkCondition, Visit.andThen_eq_ok] at h
  obtain ⟨n, found, htest, h⟩ := h
  split at h
  · obtain rfl : n = test' := congrArg Visit.node h
    exact checkExpr_recorded test htest
  · simp at h

theorem optional_recorded {α β : Type} {visit : α → Visit α β} {nodes : α → List Node}
    {a a' : Option α} {b : Option β} (h : Visit.optional visit a = ⟨a', .ok b⟩)
    (hvisit : ∀ x x' y, visit x = ⟨x', .ok y⟩ → Forall₂ (Recorded s id) (nodes x) (nodes x')) :
    Forall₂ (Recorded s id) (a.elim [] nodes) (a'.elim [] nodes) := by
  cases a with
  | none =>
    obtain ⟨rfl, _⟩ := Visit.optional_none_eq_ok.mp h
    exact .nil
  | some x =>
    obtain ⟨x', y, hx, rfl, _⟩ := Visit.optional_some_eq_ok.mp h
    exact hvisit x x' y hx

mutual

theorem checkStmt_records (st : Stmt) {s s' : Scopes} {id : Nat} {st' : Stmt} {type : Ty}
    (h : s.checkStmt id st = ⟨st', .ok (type, s')⟩) :
    Task.Records (st.tasks s id) st.nodes st'.nodes := by
  have hself := recorded_stmt h
  cases st with
  | var info name t init =>
    rw [checkStmt, Visit.andThen_eq_ok] at h
    obtain ⟨t', declared, ht, h⟩ := h
    rw [Visit.andThen_eq_ok] at h
    obtain ⟨init', found, hinit, h⟩ := h
    split at h
    · simp at h
    · split at h
      · simp at h
      · obtain ⟨_, rfl, rfl, rfl⟩ := settleStmt_eq_ok.mp h
        have htypes := optional_recorded ht fun x x' y hx => resolve_recorded x hx
        have hexprs := optional_recorded hinit fun x x' y hx => checkExpr_recorded x hx
        exact Task.records_allIn (.cons (hself rfl) (rel_append htypes hexprs))
  | expr info e =>
    rw [checkStmt, Visit.andThen_eq_ok] at h
    obtain ⟨e', found, he, h⟩ := h
    obtain ⟨_, rfl, rfl, rfl⟩ := settleStmt_eq_ok.mp h
    exact Task.records_allIn (.cons (hself rfl) (checkExpr_recorded e he))
  | block info body =>
    rw [checkStmt, Visit.andThen_eq_ok] at h
    obtain ⟨body', ⟨last, s₁⟩, hbody, h⟩ := h
    obtain ⟨_, rfl, rfl, rfl⟩ := settleStmt_eq_ok.mp h
    exact .cons (hself rfl) (checkStmts_records body hbody)
  | cond info test yes no =>
    cases no with
    | none =>
      rw [checkStmt, Visit.andThen_eq_ok] at h
      obtain ⟨test', _, htest, h⟩ := h
      rw [Visit.andThen_eq_ok] at h
      obtain ⟨yes', ⟨yesType, s₁⟩, hyes, h⟩ := h
      obtain ⟨_, rfl, rfl, rfl⟩ := settleStmt_eq_ok.mp h
      have htests := Task.records_allIn (checkCondition_recorded htest)
      exact .cons (hself rfl) (htests.append (checkStmt_records yes hyes))
    | some no =>
      rw [checkStmt, Visit.andThen_eq_ok] at h
      obtain ⟨test', _, htest, h⟩ := h
      rw [Visit.andThen_eq_ok] at h
      obtain ⟨yes', ⟨yesType, s₁⟩, hyes, h⟩ := h
      rw [Visit.andThen_eq_ok] at h
      obtain ⟨no', ⟨noType, s₂⟩, hno, h⟩ := h
      dsimp only at h
      split at h
      · obtain ⟨_, rfl, rfl, rfl⟩ := settleStmt_eq_ok.mp h
        have htests := Task.records_allIn (checkCondition_recorded htest)
        have hbranches := (htests.append (checkStmt_records yes hyes)).append
          (checkStmt_records no hno)
        rw [Stmt.tasks, hyes, Task.after_ok]
        exact .cons (hself rfl) hbranches
      · simp at h
  | loop info test body =>
    rw [checkStmt, Visit.andThen_eq_ok] at h
    obtain ⟨test', _, htest, h⟩ := h
    rw [Visit.andThen_eq_ok] at h
    obtain ⟨body', ⟨bodyType, s₁⟩, hbody, h⟩ := h
    obtain ⟨_, rfl, rfl, rfl⟩ := settleStmt_eq_ok.mp h
    have htests := Task.records_allIn (checkCondition_recorded htest)
    exact .cons (hself rfl) (htests.append (checkStmt_records body hbody))
  | ret info value =>
    rw [checkStmt] at h
    split at h
    · simp at h
    · rw [Visit.andThen_eq_ok] at h
      obtain ⟨value', found, hvalue, h⟩ := h
      split at h
      · obtain ⟨_, rfl, rfl, rfl⟩ := settleStmt_eq_ok.mp h
        have hexprs := optional_recorded hvalue fun x x' y hx => checkExpr_recorded x hx
        exact Task.records_allIn (.cons (hself rfl) hexprs)
      · simp at h
termination_by structural st

theorem checkStmts_records (sts : List Stmt) {s s' : Scopes} {id : Nat} {last : Ty}
    {sts' : List Stmt} {type : Ty} (h : s.checkStmts id last sts = ⟨sts', .ok (type, s')⟩) :
    Task.Records (Stmt.tasksAll s id sts) (Stmt.nodesAll sts) (Stmt.nodesAll sts') := by
  cases sts with
  | nil =>
    simp only [checkStmts, Visit.mk.injEq] at h
    obtain ⟨rfl, _⟩ := h
    exact ⟨rfl, .nil⟩
  | cons st sts =>
    rw [checkStmts, Visit.andThen_eq_ok] at h
    obtain ⟨st', ⟨found, s₁⟩, hst, h⟩ := h
    simp only [Visit.andThen_eq_ok, Visit.mk.injEq] at h
    obtain ⟨rest, ⟨last', s₂⟩, hrest, rfl, _⟩ := h
    rw [Stmt.tasksAll, hst, Task.after_ok]
    exact (checkStmt_records st hst).append (checkStmts_records sts hrest)
termination_by structural sts

end

theorem checkFunc_records {f f' : Func} {pos : Pos} {type : Ty}
    (h : s.checkFunc id pos f = ⟨f', .ok (type, s')⟩) :
    Task.Records (f.tasks s id pos) f.nodes f'.nodes := by
  rw [checkFunc] at h
  split at h
  · simp at h
  · rw [Visit.andThen_eq_ok] at h
    obtain ⟨params, fields, hparams, h⟩ := h
    rw [Visit.andThen_eq_ok] at h
    obtain ⟨ret, result, hret, h⟩ := h
    cases henter : s.enterFunction id ⟨f.name, params, ret, f.body⟩ pos fields result with
    | error d => simp [henter] at h
    | ok entered =>
      obtain ⟨inner, s₁⟩ := entered
      simp only [henter, Visit.andThen_eq_ok] at h
      obtain ⟨body, ⟨bodyType, s₂⟩, hbody, h⟩ := h
      split at h
      · simp at h
      · split at h
        · simp at h
        · obtain rfl : ⟨f.name, params, ret, body⟩ = f' := congrArg Visit.node h
          have hsignature := Task.records_allIn
            (rel_append (resolveItems_recorded f.params hparams) (resolve_recorded f.ret hret))
          rw [Func.tasks, hparams, hret]
          simp only [henter]
          exact hsignature.append (checkStmt_records f.body hbody)

theorem checkDef_records {d d' : Def} {type : Ty}
    (h : s.checkDef id d = ⟨d', .ok (type, s')⟩) :
    Task.Records (d.tasks s id) d.nodes d'.nodes := by
  have hself : d'.info.type = some type → Recorded s id (.definition d) (.definition d') := by
    intro hcell
    refine ⟨type, ?_, hcell⟩
    simp [visit, h]
  cases d with
  | object info name fields =>
    rw [checkDef] at h
    split at h
    · simp at h
    · rw [Visit.andThen_eq_ok] at h
      obtain ⟨fields', types, hfields, h⟩ := h
      split at h
      · simp at h
      · simp only [Visit.andThen_eq_ok, Visit.settle_eq_ok, Visit.mk.injEq, Except.ok.injEq,
          Prod.mk.injEq] at h
        obtain ⟨_, _, ⟨_, rfl, rfl⟩, rfl, rfl, _⟩ := h
        exact Task.records_allIn (.cons (hself rfl) (resolveItems_recorded fields hfields))
  | func info f =>
    rw [checkDef, Visit.andThen_eq_ok] at h
    obtain ⟨f', ⟨found, s₁⟩, hf, h⟩ := h
    simp only [Visit.andThen_eq_ok, Visit.settle_eq_ok, Visit.mk.injEq, Except.ok.injEq,
      Prod.mk.injEq] at h
    obtain ⟨_, _, ⟨_, rfl, rfl⟩, rfl, rfl, _⟩ := h
    exact .cons (hself rfl) (checkFunc_records hf)

theorem checkDefs_records {ds ds' : List Def} (h : s.checkDefs id ds = ⟨ds', .ok s'⟩) :
    Task.Records (Def.tasksAll s id ds) (Def.nodesAll ds) (Def.nodesAll ds') := by
  induction ds generalizing s ds' with
  | nil =>
    simp only [checkDefs, Visit.mk.injEq] at h
    obtain ⟨rfl, _⟩ := h
    exact ⟨rfl, .nil⟩
  | cons d ds ih =>
    rw [checkDefs, Visit.andThen_eq_ok] at h
    obtain ⟨d', ⟨type, s₁⟩, hd, h⟩ := h
    simp only [Visit.andThen_eq_ok, Visit.mk.injEq, Except.ok.injEq] at h
    obtain ⟨rest, s₂, hrest, rfl, rfl⟩ := h
    rw [Def.tasksAll, hd, Task.after_ok]
    exact (checkDef_records hd).append (ih hrest)

end Scopes

/-- A check that succeeds has visited every node once and left its type on it. -/
theorem Module.check_records {m m' : Module} {type : Ty} (h : m.check = ⟨m', .ok type⟩) :
    Task.Records m.tasks m.nodes m'.nodes := by
  have hvisit : Node.visit Scopes.initial Scopes.preludeId (.module m) = ⟨.module m', .ok type⟩ := by
    simp [Node.visit, h]
  simp only [check, Visit.andThen_eq_ok] at h
  obtain ⟨defs, s, hdefs, stmts, ⟨last, s'⟩, hstmts, h⟩ := h
  split at h
  · simp at h
  · simp only [Visit.mk.injEq, Except.ok.injEq] at h
    obtain ⟨rfl, rfl⟩ := h
    simp only [tasks, hdefs]
    exact .cons ⟨_, hvisit, rfl⟩
      ((Scopes.checkDefs_records hdefs).append (Scopes.checkStmts_records m.stmts hstmts))

end EdeLang
