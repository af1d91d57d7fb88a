import EdeLang.Proofs.Syntax.Fields

/-!
# The nodes of a syntax tree

A tree is listed node by node, each in front of its parts. It is fresh if none of its nodes has
a type, as is every tree that the grammar gives.
-/

namespace EdeLang

/-- A part of a module that gets a type when it is checked. -/
inductive Node where
  | type (t : TypeExpr)
  | expr (e : Expr)
  | stmt (s : Stmt)
  | definition (d : Def)
  | module (m : Module)

namespace Node

def cell : Node → Option Ty
  | .type t => t.info.type
  | .expr e => e.info.type
  | .stmt s => s.info.type
  | .definition d => d.info.type
  | .module m => m.type

def Fresh (nodes : List Node) : Prop := ∀ n ∈ nodes, n.cell = none

@[simp]
theorem fresh_nil : Fresh [] := by simp [Fresh]

@[simp]
theorem fresh_cons {n : Node} {nodes : List Node} :
    Fresh (n :: nodes) ↔ n.cell = none ∧ Fresh nodes := List.forall_mem_cons

@[simp]
theorem fresh_append {first second : List Node} :
    Fresh (first ++ second) ↔ Fresh first ∧ Fresh second := List.forall_mem_append

end Node

@[simp]
theorem Info.type_at (pos : Pos) : (Info.at pos).type = none := rfl

namespace TypeExpr

mutual

def nodes : TypeExpr → List Node
  | .name info n => [.type (.name info n)]
  | .array info elem => .type (.array info elem) :: nodes elem
  | .tuple info elems => .type (.tuple info elems) :: nodesAll elems
  | .record info items => .type (.record info items) :: nodesItems items

def nodesAll : List TypeExpr → List Node
  | [] => []
  | t :: ts => nodes t ++ nodesAll ts

def nodesItems : List (Item TypeExpr) → List Node
  | [] => []
  | ⟨_, _, t⟩ :: items => nodes t ++ nodesItems items

end

end TypeExpr

namespace Expr

mutual

def nodes : Expr → List Node
  | .literal info value => [.expr (.literal info value)]
  | .ident info name => [.expr (.ident info name)]
  | .binop info op left right => .expr (.binop info op left right) :: (nodes left ++ nodes right)
  | .assign info name value => .expr (.assign info name value) :: nodes value
  | .array info elems => .expr (.array info elems) :: nodesAll elems
  | .tuple info elems => .expr (.tuple info elems) :: nodesAll elems
  | .object info name inits => .expr (.object info name inits) :: nodesInits inits
  | .call info name args => .expr (.call info name args) :: nodesAll args
  | .default info type => .expr (.default info type) :: type.nodes

def nodesAll : List Expr → List Node
  | [] => []
  | e :: es => nodes e ++ nodesAll es

def nodesInits : List (String × Expr) → List Node
  | [] => []
  | (_, e) :: inits => nodes e ++ nodesInits inits

end

end Expr

namespace Stmt

mutual

def nodes : Stmt → List Node
  | .var info name type init =>
    .stmt (.var info name type init) :: (type.elim [] TypeExpr.nodes ++ init.elim [] Expr.nodes)
  | .expr info e => .stmt (.expr info e) :: e.nodes
  | .block info stmts => .stmt (.block info stmts) :: nodesAll stmts
  | .cond info test yes none => .stmt (.cond info test yes none) :: (test.nodes ++ nodes yes)
  | .cond info test yes (some no) =>
    .stmt (.cond info test yes (some no)) :: (test.nodes ++ nodes yes ++ nodes no)
  | .loop info test body => .stmt (.loop info test body) :: (test.nodes ++ nodes body)
  | .ret info value => .stmt (.ret info value) :: value.elim [] Expr.nodes

def nodesAll : List Stmt → List Node
  | [] => []
  | s :: ss => nodes s ++ nodesAll ss

end

end Stmt

def Func.nodes (f : Func) : List Node :=
  TypeExpr.nodesItems f.params ++ f.ret.nodes ++ f.body.nodes

namespace Def

def nodes : Def → List Node
  | .object info name fields =>
    .definition (.object info name fields) :: TypeExpr.nodesItems fields
  | .func info f => .definition (.func info f) :: f.nodes

def nodesAll : List Def → List Node
  | [] => []
  | d :: ds => nodes d ++ nodesAll ds

end Def

def Module.nodes (m : Module) : List Node :=
  .module m :: (Def.nodesAll m.defs ++ Stmt.nodesAll m.stmts)

mutual

theorem TypeExpr.eq_type_of_mem_nodes (t : TypeExpr) {node : Node} (h : node ∈ t.nodes) :
    ∃ t', node = .type t' := by
  cases t with
  | name info n => exact ⟨_, List.mem_singleton.mp h⟩
  | array info elem =>
    rcases List.mem_cons.mp h with rfl | h
    · exact ⟨_, rfl⟩
    · exact TypeExpr.eq_type_of_mem_nodes elem h
  | tuple info elems =>
    rcases List.mem_cons.mp h with rfl | h
    · exact ⟨_, rfl⟩
    · exact TypeExpr.eq_type_of_mem_nodesAll elems h
  | record info items =>
    rcases List.mem_cons.mp h with rfl | h
    · exact ⟨_, rfl⟩
    · exact TypeExpr.eq_type_of_mem_nodesItems items h
termination_by structural t

theorem TypeExpr.eq_type_of_mem_nodesAll (ts : List TypeExpr) {node : Node}
    (h : node ∈ TypeExpr.nodesAll ts) : ∃ t', node = .type t' := by
  cases ts with
  | nil => cases h
  | cons t ts =>
    rcases List.mem_append.mp h with h | h
    · exact TypeExpr.eq_type_of_mem_nodes t h
    · exact TypeExpr.eq_type_of_mem_nodesAll ts h
termination_by structural ts

theorem TypeExpr.eq_type_of_mem_nodesItems (items : List (Item TypeExpr)) {node : Node}
    (h : node ∈ TypeExpr.nodesItems items) : ∃ t', node = .type t' := by
  cases items with
  | nil => cases h
  | cons item items =>
    obtain ⟨pos, name, t⟩ := item
    rcases List.mem_append.mp h with h | h
    · exact TypeExpr.eq_type_of_mem_nodes t h
    · exact TypeExpr.eq_type_of_mem_nodesItems items h
termination_by structural items

end

theorem Expr.self_mem_nodes (e : Expr) : .expr e ∈ e.nodes := by
  cases e <;> simp [Expr.nodes]

theorem Expr.mem_nodesAll {e : Expr} {es : List Expr} (he : e ∈ es) :
    .expr e ∈ Expr.nodesAll es := by
  induction es with
  | nil => simp at he
  | cons e' es ih =>
    rw [Expr.nodesAll, List.mem_append]
    rcases List.mem_cons.mp he with rfl | he
    · exact .inl (Expr.self_mem_nodes e)
    · exact .inr (ih he)

theorem Expr.mem_nodesInits {init : String × Expr} {inits : List (String × Expr)}
    (hinit : init ∈ inits) : .expr init.2 ∈ Expr.nodesInits inits := by
  induction inits with
  | nil => simp at hinit
  | cons init' inits ih =>
    obtain ⟨name, e⟩ := init'
    rw [Expr.nodesInits, List.mem_append]
    rcases List.mem_cons.mp hinit with rfl | hinit
    · exact .inl (Expr.self_mem_nodes e)
    · exact .inr (ih hinit)

theorem Stmt.self_mem_nodes (s : Stmt) : .stmt s ∈ s.nodes := by
  cases s with
  | cond info test yes no => cases no <;> simp [Stmt.nodes]
  | _ => simp [Stmt.nodes]

theorem Stmt.mem_nodesAll {s : Stmt} {ss : List Stmt} (hs : s ∈ ss) :
    .stmt s ∈ Stmt.nodesAll ss := by
  induction ss with
  | nil => simp at hs
  | cons s' ss ih =>
    rw [Stmt.nodesAll, List.mem_append]
    rcases List.mem_cons.mp hs with rfl | hs
    · exact .inl (Stmt.self_mem_nodes s)
    · exact .inr (ih hs)

theorem Def.exists_of_mem_nodesAll {node : Node} {ds : List Def} (h : node ∈ Def.nodesAll ds) :
    ∃ d ∈ ds, node ∈ d.nodes := by
  induction ds with
  | nil => cases h
  | cons d ds ih =>
    rcases List.mem_append.mp h with h | h
    · exact ⟨d, List.mem_cons_self, h⟩
    · obtain ⟨d', hd', h⟩ := ih h
      exact ⟨d', List.mem_cons_of_mem d hd', h⟩

theorem Def.mem_nodesAll {d : Def} {ds : List Def} (hd : d ∈ ds) {node : Node}
    (h : node ∈ d.nodes) : node ∈ Def.nodesAll ds := by
  induction ds with
  | nil => cases hd
  | cons d' ds ih =>
    rw [Def.nodesAll, List.mem_append]
    rcases List.mem_cons.mp hd with rfl | hd
    · exact .inl h
    · exact .inr (ih hd)

theorem Module.mem_nodes_of_stmts {m : Module} {node : Node} (h : node ∈ Stmt.nodesAll m.stmts) :
    node ∈ m.nodes :=
  List.mem_cons_of_mem _ (List.mem_append_right _ h)

theorem Module.body_mem_nodes {m : Module} {f : Func} (hf : f ∈ m.funcs) :
    .stmt f.body ∈ m.nodes := by
  obtain ⟨d, hd, hfunc⟩ := List.mem_filterMap.mp hf
  cases d with
  | object info name fields => cases hfunc
  | func info g =>
    cases hfunc
    have hbody : .stmt f.body ∈ (Def.func info f).nodes :=
      List.mem_cons_of_mem _ (List.mem_append_right _ f.body.self_mem_nodes)
    exact List.mem_cons_of_mem _ (List.mem_append_left _ (Def.mem_nodesAll hd hbody))

namespace Grammar

open Cursor Node Parse

attribute [local simp] cell TypeExpr.info Expr.info Stmt.info Def.info TypeExpr.nodes
  TypeExpr.nodesAll TypeExpr.nodesItems Expr.nodes Expr.nodesAll Expr.nodesInits Stmt.nodes
  Stmt.nodesAll Func.nodes Def.nodesAll Module.nodes

/-- The rules for types with some fuel give fresh trees. -/
structure FreshTypes (fuel : Nat) : Prop where
  type : Yields (type fuel) fun t => Fresh t.nodes
  moreTypes : Yields (moreTypes fuel) fun ts => Fresh (TypeExpr.nodesAll ts)
  item : Yields (item fuel) fun i => Fresh i.type.nodes
  moreItems : Yields (moreItems fuel) fun is => Fresh (TypeExpr.nodesItems is)

section Types

variable {fuel : Nat} (h : FreshTypes fuel)

include h

private theorem type_fresh : Yields (type (fuel + 1)) fun t => Fresh t.nodes := by
  unfold type
  refine yields_bind fun start => yields_bind fun named => ?_
  split
  · refine yields_bind ?_
    rintro ⟨name, pos⟩
    exact yields_pure (by simp)
  refine yields_bind fun bracket => ?_
  split
  · refine yields_bind fun _ => ?_
    refine h.type.bind ?_
    intro elem helem
    refine yields_bind fun _ => ?_
    exact yields_pure (by simp [helem])
  refine yields_bind fun paren => ?_
  split
  · refine yields_bind fun _ => ?_
    refine h.type.bind ?_
    intro first hfirst
    refine yields_bind fun _ => ?_
    refine h.type.bind ?_
    intro second hsecond
    refine h.moreTypes.bind ?_
    intro rest hrest
    refine yields_bind fun _ => ?_
    exact yields_pure (by simp [hfirst, hsecond, hrest])
  refine yields_bind fun curly => ?_
  split
  · refine yields_bind fun _ => ?_
    refine h.item.bind ?_
    intro first hfirst
    refine h.moreItems.bind ?_
    intro rest hrest
    refine yields_bind fun _ => yields_bind fun _ => ?_
    exact yields_pure (by simp [hfirst, hrest])
  · exact yields_bind fun d => yields_throw _

private theorem moreTypes_fresh :
    Yields (moreTypes (fuel + 1)) fun ts => Fresh (TypeExpr.nodesAll ts) := by
  unfold moreTypes
  refine yields_bind fun comma => ?_
  cases comma with
  | none => exact yields_pure (by simp)
  | some _ =>
    refine h.type.bind ?_
    intro t ht
    refine h.moreTypes.bind ?_
    intro rest hrest
    exact yields_pure (by simp [ht, hrest])

private theorem item_fresh : Yields (item (fuel + 1)) fun i => Fresh i.type.nodes := by
  unfold item
  refine yields_bind ?_
  rintro ⟨name, pos⟩
  refine yields_bind fun _ => ?_
  refine h.type.bind ?_
  intro t ht
  exact yields_pure ht

private theorem moreItems_fresh :
    Yields (moreItems (fuel + 1)) fun is => Fresh (TypeExpr.nodesItems is) := by
  unfold moreItems
  refine yields_bind fun comma => ?_
  cases comma with
  | none => exact yields_pure (by simp)
  | some _ =>
    refine h.item.bind ?_
    intro i hi
    refine h.moreItems.bind ?_
    intro rest hrest
    exact yields_pure (by simp [hi, hrest])

end Types

theorem freshTypes (fuel : Nat) : FreshTypes fuel := by
  induction fuel with
  | zero => exact ⟨yields_throw _, yields_throw _, yields_throw _, yields_throw _⟩
  | succ fuel ih => exact ⟨type_fresh ih, moreTypes_fresh ih, item_fresh ih, moreItems_fresh ih⟩

theorem items_fresh (fuel : Nat) (close : Tag) :
    Yields (items fuel close) fun is => Fresh (TypeExpr.nodesItems is) := by
  unfold items
  refine yields_bind fun closed => ?_
  split
  · exact yields_pure (by simp)
  · refine (freshTypes fuel).item.bind ?_
    intro first hfirst
    refine (freshTypes fuel).moreItems.bind ?_
    intro rest hrest
    exact yields_pure (by simp [hfirst, hrest])

structure FreshExprs (fuel : Nat) : Prop where
  climb : ∀ least, Yields (climb fuel least) fun e => Fresh e.nodes
  climbRest : ∀ least l, Fresh l.nodes → Yields (climbRest fuel least l) fun e => Fresh e.nodes
  atom : Yields (atom fuel) fun e => Fresh e.nodes
  exprs : ∀ close, Yields (exprs fuel close) fun es => Fresh (Expr.nodesAll es)
  moreExprs : Yields (moreExprs fuel) fun es => Fresh (Expr.nodesAll es)
  inits : ∀ close, Yields (inits fuel close) fun is => Fresh (Expr.nodesInits is)
  moreInits : Yields (moreInits fuel) fun is => Fresh (Expr.nodesInits is)
  init : Yields (init fuel) fun i => Fresh i.2.nodes

private theorem combine_fresh (op : Operator) (pos : Pos) {l r : Expr} (hl : Fresh l.nodes)
    (hr : Fresh r.nodes) : Yields (combine op pos l r) fun e => Fresh e.nodes := by
  unfold combine
  split
  · exact yields_pure (by simp [hl, hr])
  · split
    · exact yields_pure (by simp [hr])
    · exact yields_throw _

section Exprs

variable {fuel : Nat} (h : FreshExprs fuel)

include h

private theorem climb_fresh (least : Nat) :
    Yields (climb (fuel + 1) least) fun e => Fresh e.nodes := by
  unfold climb
  refine h.atom.bind ?_
  intro l hl
  exact h.climbRest least l hl

private theorem climbRest_fresh (least : Nat) (l : Expr) (hl : Fresh l.nodes) :
    Yields (climbRest (fuel + 1) least l) fun e => Fresh e.nodes := by
  unfold climbRest
  refine yields_bind fun op => ?_
  cases op with
  | none => exact yields_pure hl
  | some op =>
    dsimp only
    split
    · exact yields_pure hl
    · refine yields_bind fun t => ?_
      refine (h.climb _).bind ?_
      intro r hr
      refine (combine_fresh op t.pos hl hr).bind ?_
      intro whole hwhole
      exact h.climbRest least whole hwhole

private theorem atom_fresh : Yields (atom (fuel + 1)) fun e => Fresh e.nodes := by
  unfold atom
  refine yields_bind fun start => yields_bind fun isLiteral => ?_
  split
  · refine yields_bind fun value => ?_
    exact yields_pure (by simp)
  refine yields_bind fun paren => ?_
  split
  · refine yields_bind fun _ => yields_bind fun closed => ?_
    split
    · exact yields_pure (by simp)
    refine (h.climb 0).bind ?_
    intro first hfirst
    refine yields_bind fun closed => ?_
    split
    · exact yields_pure hfirst
    refine h.moreExprs.bind ?_
    intro rest hrest
    refine yields_bind fun _ => ?_
    exact yields_pure (by simp [hfirst, hrest])
  refine yields_bind fun bracket => ?_
  split
  · refine yields_bind fun _ => ?_
    refine (h.exprs _).bind ?_
    intro elems helems
    refine yields_bind fun _ => ?_
    exact yields_pure (by simp [helems])
  refine yields_bind fun isDefault => ?_
  split
  · refine yields_bind fun _ => yields_bind fun _ => ?_
    refine (freshTypes fuel).type.bind ?_
    intro t ht
    refine yields_bind fun _ => ?_
    exact yields_pure (by simp [ht])
  refine yields_bind fun named => ?_
  split
  · refine yields_bind ?_
    rintro ⟨name, pos⟩
    refine yields_bind fun called => ?_
    split
    · refine yields_bind fun _ => ?_
      refine (h.exprs _).bind ?_
      intro args hargs
      refine yields_bind fun _ => ?_
      exact yields_pure (by simp [hargs])
    refine yields_bind fun initialised => ?_
    split
    · refine yields_bind fun _ => ?_
      refine (h.inits _).bind ?_
      intro inits hinits
      refine yields_bind fun _ => ?_
      exact yields_pure (by simp [hinits])
    · exact yields_pure (by simp)
  · exact yields_bind fun d => yields_throw _

private theorem exprs_fresh (close : Tag) :
    Yields (exprs (fuel + 1) close) fun es => Fresh (Expr.nodesAll es) := by
  unfold exprs
  refine yields_bind fun closed => ?_
  split
  · exact yields_pure (by simp)
  · refine (h.climb 0).bind ?_
    intro first hfirst
    refine h.moreExprs.bind ?_
    intro rest hrest
    exact yields_pure (by simp [hfirst, hrest])

private theorem moreExprs_fresh :
    Yields (moreExprs (fuel + 1)) fun es => Fresh (Expr.nodesAll es) := by
  unfold moreExprs
  refine yields_bind fun comma => ?_
  cases comma with
  | none => exact yields_pure (by simp)
  | some _ =>
    refine (h.climb 0).bind ?_
    intro e he
    refine h.moreExprs.bind ?_
    intro rest hrest
    exact yields_pure (by simp [he, hrest])

private theorem inits_fresh (close : Tag) :
    Yields (inits (fuel + 1) close) fun is => Fresh (Expr.nodesInits is) := by
  unfold inits
  refine yields_bind fun closed => ?_
  split
  · exact yields_pure (by simp)
  · refine h.init.bind ?_
    rintro ⟨name, e⟩ he
    refine h.moreInits.bind ?_
    intro rest hrest
    exact yields_pure (by simp [he, hrest])

private theorem moreInits_fresh :
    Yields (moreInits (fuel + 1)) fun is => Fresh (Expr.nodesInits is) := by
  unfold moreInits
  refine yields_bind fun comma => ?_
  cases comma with
  | none => exact yields_pure (by simp)
  | some _ =>
    refine h.init.bind ?_
    rintro ⟨name, e⟩ he
    refine h.moreInits.bind ?_
    intro rest hrest
    exact yields_pure (by simp [he, hrest])

private theorem init_fresh : Yields (init (fuel + 1)) fun i => Fresh i.2.nodes := by
  unfold init
  refine yields_bind ?_
  rintro ⟨name, pos⟩
  refine yields_bind fun _ => ?_
  refine (h.climb 0).bind ?_
  intro e he
  exact yields_pure he

end Exprs

theorem freshExprs (fuel : Nat) : FreshExprs fuel := by
  induction fuel with
  | zero =>
    exact ⟨fun _ => yields_throw _, fun _ _ _ => yields_throw _, yields_throw _,
      fun _ => yields_throw _, yields_throw _, fun _ => yields_throw _, yields_throw _,
      yields_throw _⟩
  | succ fuel ih =>
    exact ⟨climb_fresh ih, climbRest_fresh ih, atom_fresh ih, exprs_fresh ih, moreExprs_fresh ih,
      inits_fresh ih, moreInits_fresh ih, init_fresh ih⟩

private theorem optional_fresh {α : Type} {p : Parse α} {nodes : α → List Node} (tag : Tag)
    (hp : Yields p fun a => Fresh (nodes a)) :
    Yields (optional tag p) fun a => Fresh (a.elim [] nodes) := by
  unfold optional
  refine yields_bind fun found => ?_
  split
  · refine yields_bind fun _ => ?_
    refine hp.bind ?_
    intro a ha
    exact yields_pure ha
  · exact yields_pure (by simp)

structure FreshStmts (fuel : Nat) : Prop where
  stmt : Yields (stmt fuel) fun s => Fresh s.nodes
  block : Yields (block fuel) fun s => Fresh s.nodes
  stmts : Yields (stmts fuel) fun ss => Fresh (Stmt.nodesAll ss)

section Stmts

variable {fuel : Nat} (h : FreshStmts fuel)

include h

private theorem stmt_fresh : Yields (stmt (fuel + 1)) fun s => Fresh s.nodes := by
  have hexpr : Yields (expr fuel) fun e => Fresh e.nodes := (freshExprs fuel).climb 0
  unfold stmt
  refine yields_bind fun start => yields_bind fun declares => ?_
  split
  · refine yields_bind fun _ => ?_
    refine yields_bind ?_
    rintro ⟨name, pos⟩
    refine (optional_fresh _ (freshTypes fuel).type).bind ?_
    intro t ht
    cases t with
    | some t =>
      refine (optional_fresh _ hexpr).bind ?_
      intro init hinit
      refine yields_bind fun _ => ?_
      exact yields_pure (by simpa [hinit] using ht)
    | none =>
      refine yields_bind fun _ => ?_
      refine hexpr.bind ?_
      intro init hinit
      refine yields_bind fun _ => ?_
      exact yields_pure (by simp [hinit])
  refine yields_bind fun conditional => ?_
  split
  · refine yields_bind fun _ => yields_bind fun _ => ?_
    refine hexpr.bind ?_
    intro test htest
    refine yields_bind fun _ => ?_
    refine h.stmt.bind ?_
    intro yes hyes
    refine yields_bind fun hasElse => ?_
    split
    · refine yields_bind fun _ => ?_
      refine h.stmt.bind ?_
      intro no hno
      exact yields_pure (by simp [htest, hyes, hno])
    · exact yields_pure (by simp [htest, hyes])
  refine yields_bind fun loops => ?_
  split
  · refine yields_bind fun _ => yields_bind fun _ => ?_
    refine hexpr.bind ?_
    intro test htest
    refine yields_bind fun _ => ?_
    refine h.stmt.bind ?_
    intro body hbody
    exact yields_pure (by simp [htest, hbody])
  refine yields_bind fun opens => ?_
  split
  · exact h.block
  refine yields_bind fun returns => ?_
  split
  · refine yields_bind fun _ => yields_bind fun ended => ?_
    split
    · refine yields_bind fun _ => ?_
      exact yields_pure (by simp)
    · refine hexpr.bind ?_
      intro e he
      refine yields_bind fun _ => ?_
      exact yields_pure (by simp [he])
  · refine hexpr.bind ?_
    intro e he
    refine yields_bind fun _ => ?_
    exact yields_pure (by simp [he])

private theorem block_fresh : Yields (block (fuel + 1)) fun s => Fresh s.nodes := by
  unfold block
  refine yields_bind fun _ => ?_
  refine h.stmts.bind ?_
  intro body hbody
  refine yields_bind fun _ => ?_
  exact yields_pure (by simp [hbody])

private theorem stmts_fresh : Yields (stmts (fuel + 1)) fun ss => Fresh (Stmt.nodesAll ss) := by
  unfold stmts
  refine yields_bind fun closed => ?_
  split
  · exact yields_pure (by simp)
  · refine h.stmt.bind ?_
    intro s hs
    refine h.stmts.bind ?_
    intro rest hrest
    exact yields_pure (by simp [hs, hrest])

end Stmts

theorem freshStmts (fuel : Nat) : FreshStmts fuel := by
  induction fuel with
  | zero => exact ⟨yields_throw _, yields_throw _, yields_throw _⟩
  | succ fuel ih => exact ⟨stmt_fresh ih, block_fresh ih, stmts_fresh ih⟩

theorem definition_fresh (fuel : Nat) : Yields (definition fuel) fun d => Fresh d.nodes := by
  unfold definition
  refine yields_bind fun start => yields_bind fun isObject => ?_
  split
  · refine yields_bind ?_
    rintro ⟨name, pos⟩
    refine yields_bind fun _ => ?_
    refine (items_fresh fuel _).bind ?_
    intro fields hfields
    refine yields_bind fun _ => yields_bind fun _ => ?_
    exact yields_pure (by simp [Def.nodes, hfields])
  refine yields_bind fun isFunc => ?_
  split
  · refine yields_bind ?_
    rintro ⟨name, pos⟩
    refine yields_bind fun _ => ?_
    refine (items_fresh fuel _).bind ?_
    intro params hparams
    refine yields_bind fun _ => yields_bind fun _ => ?_
    refine (optional_fresh _ (freshTypes fuel).type).bind ?_
    intro ret hret
    refine (freshStmts fuel).block.bind ?_
    intro body hbody
    -- a result type that is not written is a new node too
    have hresult : Fresh (ret.getD (.name (.at pos) "unit")).nodes := by
      cases ret with
      | none => simp
      | some t => exact hret
    exact yields_pure (by simp [Def.nodes, hparams, hresult, hbody])
  · exact yields_bind fun d => yields_throw _

theorem parts_fresh (fuel : Nat) :
    Yields (parts fuel) fun x => Fresh (Def.nodesAll x.1) ∧ Fresh (Stmt.nodesAll x.2) := by
  induction fuel with
  | zero => exact yields_throw _
  | succ fuel ih =>
    unfold parts
    refine yields_bind fun ended => ?_
    split
    · exact yields_pure (by simp)
    refine yields_bind fun defining => ?_
    split
    · refine (definition_fresh fuel).bind ?_
      intro d hd
      refine ih.bind ?_
      rintro ⟨defs, stmts⟩ ⟨hdefs, hstmts⟩
      exact yields_pure (by simp [hd, hdefs, hstmts])
    · refine (freshStmts fuel).stmt.bind ?_
      intro s hs
      refine ih.bind ?_
      rintro ⟨defs, stmts⟩ ⟨hdefs, hstmts⟩
      exact yields_pure (by simp [hs, hdefs, hstmts])

theorem module_fresh (fuel : Nat) (name : String) :
    Yields (module fuel name) fun m => Fresh m.nodes := by
  unfold module
  refine (parts_fresh fuel).bind ?_
  rintro ⟨defs, stmts⟩ ⟨hdefs, hstmts⟩
  refine yields_bind fun _ => ?_
  exact yields_pure (by simp [hdefs, hstmts])

end Grammar

/-- No node of a module that was read from tokens has a type. -/
theorem Module.fresh_of_tokens {name : String} {tokens : List Token} {m : Module}
    (h : Module.ofTokens name tokens = .ok m) : Node.Fresh m.nodes := by
  unfold Module.ofTokens at h
  split at h
  · cases h
  · next c _ =>
    split at h
    · next c' hparse =>
      cases h
      exact Grammar.module_fresh _ name c m c' hparse
    · cases h

/-- A property that a text's module can be seen to have. -/
theorem Module.exists_of_source {name text : String} {p : Module → Bool}
    (h : (Module.ofSource name text).toOption.any p = true) :
    ∃ tokens m, tokenize text false = .ok tokens ∧ Module.ofTokens name tokens = .ok m ∧
      p m = true := by
  unfold Module.ofSource at h
  cases htokens : tokenize text false with
  | error d => simp [htokens, Except.toOption] at h
  | ok tokens =>
    simp only [htokens] at h
    cases hm : Module.ofTokens name tokens with
    | error stop => simp [hm, Except.toOption] at h
    | ok m =>
      rw [hm] at h
      exact ⟨tokens, m, rfl, hm, h⟩

end EdeLang
