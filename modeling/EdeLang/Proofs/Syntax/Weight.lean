import EdeLang.Proofs.Source.Lexemes
import EdeLang.Proofs.Syntax.Fields

/-!
# Weights of syntax trees

The weight of a tree counts its nodes and the characters of its string literals. Every rule of
the grammar takes tokens of at least the weight of the tree that it gives, so a module weighs no
more than its source text has characters.
-/

namespace EdeLang

namespace TypeExpr

mutual

def weight : TypeExpr → Nat
  | .name _ _ => 1
  | .array _ elem => 1 + weight elem
  | .tuple _ elems => 1 + weightAll elems
  | .record _ items => 1 + weightItems items

def weightAll : List TypeExpr → Nat
  | [] => 0
  | t :: ts => weight t + weightAll ts

def weightItems : List (Item TypeExpr) → Nat
  | [] => 0
  | ⟨_, _, t⟩ :: items => weight t + weightItems items

end

theorem weight_pos (t : TypeExpr) : 0 < t.weight := by
  cases t <;> simp only [weight] <;> omega

theorem length_le_weightAll (ts : List TypeExpr) : ts.length ≤ weightAll ts := by
  induction ts with
  | nil => exact Nat.le_refl 0
  | cons t ts ih =>
    have hpos := t.weight_pos
    rw [List.length_cons, weightAll]
    omega

theorem length_le_weightItems (items : List (Item TypeExpr)) :
    items.length ≤ weightItems items := by
  induction items with
  | nil => exact Nat.le_refl 0
  | cons item items ih =>
    have hpos := item.type.weight_pos
    rw [List.length_cons, weightItems]
    omega

end TypeExpr

def Literal.weight : Literal → Nat
  | .string s => 1 + s.toList.length
  | _ => 1

namespace Expr

mutual

def weight : Expr → Nat
  | .literal _ value => value.weight
  | .ident _ _ => 1
  | .binop _ _ left right => 1 + weight left + weight right
  | .assign _ _ value => 1 + weight value
  | .array _ elems | .tuple _ elems | .call _ _ elems => 1 + weightAll elems
  | .object _ _ inits => 1 + weightInits inits
  | .default _ type => 1 + type.weight

def weightAll : List Expr → Nat
  | [] => 0
  | e :: es => weight e + weightAll es

def weightInits : List (String × Expr) → Nat
  | [] => 0
  | (_, e) :: inits => weight e + weightInits inits

end

theorem weight_pos (e : Expr) : 0 < e.weight := by
  cases e with
  | literal info value => cases value <;> simp only [weight, Literal.weight] <;> omega
  | _ => simp only [weight]; omega

theorem length_le_weightAll (es : List Expr) : es.length ≤ weightAll es := by
  induction es with
  | nil => exact Nat.le_refl 0
  | cons e es ih =>
    have hpos := e.weight_pos
    rw [List.length_cons, weightAll]
    omega

end Expr

namespace Stmt

mutual

def weight : Stmt → Nat
  | .var _ _ type init => 1 + type.elim 0 TypeExpr.weight + init.elim 0 Expr.weight
  | .expr _ e => 1 + e.weight
  | .block _ stmts => 1 + weightAll stmts
  | .cond _ test yes none => 1 + test.weight + weight yes
  | .cond _ test yes (some no) => 1 + test.weight + weight yes + weight no
  | .loop _ test body => 1 + test.weight + weight body
  | .ret _ value => 1 + value.elim 0 Expr.weight

def weightAll : List Stmt → Nat
  | [] => 0
  | s :: ss => weight s + weightAll ss

end

end Stmt

def Func.weight (f : Func) : Nat := TypeExpr.weightItems f.params + f.ret.weight + f.body.weight

namespace Def

def weight : Def → Nat
  | .object _ _ fields => TypeExpr.weightItems fields
  | .func _ f => f.weight

def weightAll (ds : List Def) : Nat := (ds.map weight).sum

end Def

def Module.weight (m : Module) : Nat := Def.weightAll m.defs + Stmt.weightAll m.stmts

namespace Parse

def left (c : Cursor) : Nat := (c.tokens.map Token.weight).sum

theorem left_skip_le (c : Cursor) : left c.skip ≤ left c := by
  have hsplit : c.tokens.takeWhile (fun t => t.kind.isComment) ++ c.skip.tokens = c.tokens :=
    List.takeWhile_append_dropWhile
  show (c.skip.tokens.map Token.weight).sum ≤ (c.tokens.map Token.weight).sum
  rw [← hsplit, List.map_append, List.sum_append]
  omega

variable {α β : Type} {p : Parse α} {f : α → Parse β} {w : α → Nat} {v : β → Nat}

/-- The parser takes tokens of at least the weight of its result. -/
def Spends (p : Parse α) (w : α → Nat) : Prop :=
  ∀ c a c', p c = .ok a c' → w a + left c' ≤ left c

theorem spends_pure {a : α} (h : w a = 0) : Spends (pure a : Parse α) w := by
  intro c b c' hb
  obtain ⟨rfl, rfl⟩ : a = b ∧ c = c' := by simpa [pure, EStateM.pure] using hb
  omega

theorem spends_throw (stop : Stop) : Spends (throw stop : Parse α) w := by
  intro c b c' hb
  have herror : (throw stop : Parse α) c = .error stop c := rfl
  rw [herror] at hb
  cases hb

theorem Spends.mono {w' : α → Nat} (h : Spends p w) (hle : ∀ a, w' a ≤ w a) : Spends p w' := by
  intro c a c' hc
  have hspent := h c a c' hc
  have hweight := hle a
  omega

/-- What the first parser has paid for need not be paid again. -/
theorem Spends.bind (hp : Spends p w) (hf : ∀ a, Spends (f a) fun b => v b - w a) :
    Spends (p >>= f) v := by
  intro c b c' hb
  simp only [Bind.bind, EStateM.bind] at hb
  cases hpc : p c with
  | error e c₁ => rw [hpc] at hb; cases hb
  | ok a c₁ =>
    rw [hpc] at hb
    have hfirst := hp c a c₁ hpc
    have hsecond : v b - w a + left c' ≤ left c₁ := hf a c₁ b c' hb
    omega

theorem Spends.skip (hp : Spends p w) (hf : ∀ a, Spends (f a) v) : Spends (p >>= f) v := by
  have hfree : Spends p fun _ => 0 := hp.mono fun a => Nat.zero_le _
  exact hfree.bind hf

end Parse

namespace Grammar

open Cursor Parse

theorem spends_peek : Spends peek fun _ => 0 := by
  intro c t c' h
  unfold peek at h
  split at h <;> cases h
  have hle := left_skip_le c
  show 0 + left c.skip ≤ left c
  omega

theorem spends_next : Spends next Token.weight := by
  intro c t c' h
  have hle := left_skip_le c
  unfold next at h
  split at h
  · next t rest htokens =>
    cases h
    simp only [left, htokens, List.map_cons, List.sum_cons] at hle ⊢
    omega
  · cases h

theorem spends_check (tag : Tag) : Spends (check tag) fun _ => 0 := by
  have hask : Spends (ask tag) fun _ => 0 := by
    intro c u c' h
    cases h
    exact Nat.le_of_eq (Nat.zero_add _)
  unfold check
  apply hask.skip
  intro _
  apply spends_peek.skip
  intro t
  exact spends_pure rfl

theorem spends_failUnexpected {α : Type} {w : α → Nat} :
    Spends (failUnexpected : Parse α) w := by
  have hget : Spends (get : Parse Cursor) fun _ => 0 := by
    intro c d c' h
    cases h
    exact Nat.le_of_eq (Nat.zero_add _)
  have hunexpected : Spends unexpected fun _ => 0 :=
    spends_peek.skip fun t => hget.skip fun c => spends_pure rfl
  exact hunexpected.skip fun d => spends_throw _

theorem spends_take? (tag : Tag) : Spends (take? tag) fun t => t.elim 0 Token.weight := by
  unfold take?
  apply (spends_check tag).skip
  intro found
  split
  · apply spends_next.bind
    intro t
    exact spends_pure (by simp)
  · exact spends_pure rfl

theorem spends_expect (tag : Tag) : Spends (expect tag) fun _ => 1 := by
  unfold expect
  apply (spends_take? tag).bind
  intro t
  cases t with
  | none => exact spends_failUnexpected
  | some t =>
    have hpos := t.weight_pos
    exact spends_pure (by simp only [Option.elim_some]; omega)

theorem spends_ident : Spends ident fun _ => 1 := by
  unfold ident
  apply (spends_expect .ident).bind
  intro t
  split
  · exact spends_pure rfl
  · exact spends_failUnexpected

theorem spends_distinct (items : List (Item TypeExpr)) : Spends (distinct items) fun _ => 0 := by
  unfold distinct
  split
  · exact spends_throw _
  · exact spends_pure rfl

/-- The rules for types with some fuel take the tokens of what they give. -/
structure TypeRules (fuel : Nat) : Prop where
  type : Spends (type fuel) TypeExpr.weight
  moreTypes : Spends (moreTypes fuel) TypeExpr.weightAll
  item : Spends (item fuel) fun i => i.type.weight
  moreItems : Spends (moreItems fuel) TypeExpr.weightItems

private theorem spends_type {fuel : Nat} (h : TypeRules fuel) :
    Spends (type (fuel + 1)) TypeExpr.weight := by
  unfold type
  apply spends_peek.skip
  intro start
  apply (spends_check _).skip
  intro named
  split
  · apply spends_ident.bind
    rintro ⟨name, pos⟩
    exact spends_pure (by simp [TypeExpr.weight])
  apply (spends_check _).skip
  intro bracket
  split
  · apply (spends_expect _).bind
    intro _
    apply h.type.bind
    intro elem
    apply (spends_expect _).skip
    intro _
    exact spends_pure (by simp only [TypeExpr.weight]; omega)
  apply (spends_check _).skip
  intro paren
  split
  · apply (spends_expect _).bind
    intro _
    apply h.type.bind
    intro first
    apply (spends_expect _).skip
    intro _
    apply h.type.bind
    intro second
    apply h.moreTypes.bind
    intro rest
    apply (spends_expect _).skip
    intro _
    exact spends_pure (by simp only [TypeExpr.weight, TypeExpr.weightAll]; omega)
  apply (spends_check _).skip
  intro curly
  split
  · apply (spends_expect _).bind
    intro _
    apply h.item.bind
    intro first
    apply h.moreItems.bind
    intro rest
    apply (spends_expect _).skip
    intro _
    apply (spends_distinct _).skip
    intro _
    exact spends_pure (by simp only [TypeExpr.weight, TypeExpr.weightItems]; omega)
  · exact spends_failUnexpected

private theorem spends_moreTypes {fuel : Nat} (h : TypeRules fuel) :
    Spends (moreTypes (fuel + 1)) TypeExpr.weightAll := by
  unfold moreTypes
  apply (spends_take? _).skip
  intro comma
  cases comma with
  | none => exact spends_pure rfl
  | some _ =>
    apply h.type.bind
    intro t
    apply h.moreTypes.bind
    intro rest
    exact spends_pure (by simp only [TypeExpr.weightAll]; omega)

private theorem spends_item {fuel : Nat} (h : TypeRules fuel) :
    Spends (item (fuel + 1)) fun i => i.type.weight := by
  unfold item
  apply spends_ident.skip
  rintro ⟨name, pos⟩
  apply (spends_expect _).skip
  intro _
  apply h.type.bind
  intro t
  exact spends_pure (Nat.sub_self _)

private theorem spends_moreItems {fuel : Nat} (h : TypeRules fuel) :
    Spends (moreItems (fuel + 1)) TypeExpr.weightItems := by
  unfold moreItems
  apply (spends_take? _).skip
  intro comma
  cases comma with
  | none => exact spends_pure rfl
  | some _ =>
    apply h.item.bind
    intro i
    apply h.moreItems.bind
    intro rest
    exact spends_pure (by simp only [TypeExpr.weightItems]; omega)

theorem typeRules (fuel : Nat) : TypeRules fuel := by
  induction fuel with
  | zero => exact ⟨spends_throw _, spends_throw _, spends_throw _, spends_throw _⟩
  | succ fuel ih =>
    exact ⟨spends_type ih, spends_moreTypes ih, spends_item ih, spends_moreItems ih⟩

theorem spends_items (fuel : Nat) (close : Tag) :
    Spends (items fuel close) TypeExpr.weightItems := by
  unfold items
  apply (spends_check close).skip
  intro closed
  split
  · exact spends_pure rfl
  · apply (typeRules fuel).item.bind
    intro first
    apply (typeRules fuel).moreItems.bind
    intro rest
    exact spends_pure (by simp only [TypeExpr.weightItems]; omega)

private theorem spends_orElse {α : Type} {a : α} {p : Parse α} (tag : Tag)
    (hp : Spends p fun _ => 0) : Spends (do if ← check tag then return a else p) fun _ => 0 := by
  apply (spends_check tag).skip
  intro found
  split
  · exact spends_pure rfl
  · exact hp

private theorem spends_peekOperator : Spends peekOperator fun _ => 0 := by
  unfold peekOperator
  exact spends_orElse _ (spends_orElse _ (spends_orElse _ (spends_orElse _ (spends_orElse _
    (spends_pure rfl)))))

private theorem spends_combine (op : Operator) (pos : Pos) (l r : Expr) :
    Spends (combine op pos l r) fun e => e.weight - (1 + l.weight + r.weight) := by
  unfold combine
  split
  · exact spends_pure (by simp [Expr.weight])
  · split
    · exact spends_pure (by simp only [Expr.weight]; omega)
    · exact spends_throw _

private theorem spends_checkLiteral : Spends checkLiteral fun _ => 0 := by
  unfold checkLiteral
  exact spends_orElse _ (spends_orElse _ (spends_orElse _ (spends_orElse _ (spends_check _))))

private theorem spends_literal : Spends literal Literal.weight := by
  unfold literal
  apply spends_next.bind
  intro t
  -- the token has paid for the literal
  have hpaid : ∀ {value : Literal}, value.weight = t.kind.weight →
      Spends (pure value : Parse Literal) fun v => v.weight - t.weight := by
    intro value hvalue
    have hweight : t.weight = t.kind.weight := rfl
    apply spends_pure
    rw [hweight, hvalue, Nat.sub_self]
  cases hkind : t.kind with
  | integer v => exact hpaid (by rw [hkind]; rfl)
  | text s => exact hpaid (by rw [hkind]; rfl)
  | char c => exact hpaid (by rw [hkind]; rfl)
  | keyword k =>
    cases k with
    | kTrue | kFalse => exact hpaid (by rw [hkind]; rfl)
    | _ => exact spends_failUnexpected
  | symbol | ident | comment | invalid | eof => exact spends_failUnexpected

structure ExprRules (fuel : Nat) : Prop where
  climb : ∀ least, Spends (climb fuel least) Expr.weight
  climbRest : ∀ least l, Spends (climbRest fuel least l) fun e => e.weight - l.weight
  atom : Spends (atom fuel) Expr.weight
  exprs : ∀ close, Spends (exprs fuel close) Expr.weightAll
  moreExprs : Spends (moreExprs fuel) Expr.weightAll
  inits : ∀ close, Spends (inits fuel close) Expr.weightInits
  moreInits : Spends (moreInits fuel) Expr.weightInits
  init : Spends (init fuel) fun i => i.2.weight

section Exprs

variable {fuel : Nat} (h : ExprRules fuel)

include h

private theorem spends_climb (least : Nat) : Spends (climb (fuel + 1) least) Expr.weight := by
  unfold climb
  apply h.atom.bind
  intro l
  exact h.climbRest least l

private theorem spends_climbRest (least : Nat) (l : Expr) :
    Spends (climbRest (fuel + 1) least l) fun e => e.weight - l.weight := by
  unfold climbRest
  apply spends_peekOperator.skip
  intro op
  cases op with
  | none => exact spends_pure (Nat.sub_self _)
  | some op =>
    dsimp only
    split
    · exact spends_pure (Nat.sub_self _)
    · apply spends_next.bind
      intro t
      apply (h.climb _).bind
      intro r
      apply (spends_combine op t.pos l r).bind
      intro whole
      apply (h.climbRest least whole).mono
      intro e
      have hpos := t.weight_pos
      omega

private theorem spends_atom : Spends (atom (fuel + 1)) Expr.weight := by
  unfold atom
  apply spends_peek.skip
  intro start
  apply spends_checkLiteral.skip
  intro isLiteral
  split
  · apply spends_literal.bind
    intro value
    exact spends_pure (by simp [Expr.weight])
  apply (spends_check _).skip
  intro paren
  split
  · apply (spends_expect _).bind
    intro _
    apply (spends_take? _).skip
    intro closed
    split
    · exact spends_pure (by simp [Expr.weight, Literal.weight])
    apply (h.climb 0).bind
    intro first
    apply (spends_take? _).skip
    intro closed
    split
    · exact spends_pure (by omega)
    apply h.moreExprs.bind
    intro rest
    apply (spends_expect _).skip
    intro _
    exact spends_pure (by simp only [Expr.weight, Expr.weightAll]; omega)
  apply (spends_check _).skip
  intro bracket
  split
  · apply (spends_expect _).bind
    intro _
    apply (h.exprs _).bind
    intro elems
    apply (spends_expect _).skip
    intro _
    exact spends_pure (by simp only [Expr.weight]; omega)
  apply (spends_check _).skip
  intro isDefault
  split
  · apply (spends_expect _).bind
    intro _
    apply (spends_expect _).skip
    intro _
    apply (typeRules fuel).type.bind
    intro t
    apply (spends_expect _).skip
    intro _
    exact spends_pure (by simp only [Expr.weight]; omega)
  apply (spends_check _).skip
  intro named
  split
  · apply spends_ident.bind
    rintro ⟨name, pos⟩
    apply (spends_check _).skip
    intro called
    split
    · apply (spends_expect _).skip
      intro _
      apply (h.exprs _).bind
      intro args
      apply (spends_expect _).skip
      intro _
      exact spends_pure (by simp only [Expr.weight]; omega)
    apply (spends_check _).skip
    intro initialised
    split
    · apply (spends_expect _).skip
      intro _
      apply (h.inits _).bind
      intro inits
      apply (spends_expect _).skip
      intro _
      exact spends_pure (by simp only [Expr.weight]; omega)
    · exact spends_pure (by simp [Expr.weight])
  · exact spends_failUnexpected

private theorem spends_exprs (close : Tag) :
    Spends (exprs (fuel + 1) close) Expr.weightAll := by
  unfold exprs
  apply (spends_check close).skip
  intro closed
  split
  · exact spends_pure rfl
  · apply (h.climb 0).bind
    intro first
    apply h.moreExprs.bind
    intro rest
    exact spends_pure (by simp only [Expr.weightAll]; omega)

private theorem spends_moreExprs : Spends (moreExprs (fuel + 1)) Expr.weightAll := by
  unfold moreExprs
  apply (spends_take? _).skip
  intro comma
  cases comma with
  | none => exact spends_pure rfl
  | some _ =>
    apply (h.climb 0).bind
    intro e
    apply h.moreExprs.bind
    intro rest
    exact spends_pure (by simp only [Expr.weightAll]; omega)

private theorem spends_inits (close : Tag) :
    Spends (inits (fuel + 1) close) Expr.weightInits := by
  unfold inits
  apply (spends_check close).skip
  intro closed
  split
  · exact spends_pure rfl
  · apply h.init.bind
    intro first
    apply h.moreInits.bind
    intro rest
    exact spends_pure (by simp only [Expr.weightInits]; omega)

private theorem spends_moreInits : Spends (moreInits (fuel + 1)) Expr.weightInits := by
  unfold moreInits
  apply (spends_take? _).skip
  intro comma
  cases comma with
  | none => exact spends_pure rfl
  | some _ =>
    apply h.init.bind
    intro i
    apply h.moreInits.bind
    intro rest
    exact spends_pure (by simp only [Expr.weightInits]; omega)

private theorem spends_init : Spends (init (fuel + 1)) fun i => i.2.weight := by
  unfold init
  apply spends_ident.skip
  rintro ⟨name, pos⟩
  apply (spends_expect _).skip
  intro _
  apply (h.climb 0).bind
  intro e
  exact spends_pure (Nat.sub_self _)

end Exprs

theorem exprRules (fuel : Nat) : ExprRules fuel := by
  induction fuel with
  | zero =>
    exact ⟨fun _ => spends_throw _, fun _ _ => spends_throw _, spends_throw _,
      fun _ => spends_throw _, spends_throw _, fun _ => spends_throw _, spends_throw _,
      spends_throw _⟩
  | succ fuel ih =>
    exact ⟨spends_climb ih, spends_climbRest ih, spends_atom ih, spends_exprs ih,
      spends_moreExprs ih, spends_inits ih, spends_moreInits ih, spends_init ih⟩

theorem spends_expr (fuel : Nat) : Spends (expr fuel) Expr.weight := (exprRules fuel).climb 0

private theorem spends_optional {α : Type} {p : Parse α} {w : α → Nat} (tag : Tag)
    (hp : Spends p w) : Spends (optional tag p) fun a => a.elim 0 w := by
  unfold optional
  apply (spends_check tag).skip
  intro found
  split
  · apply (spends_expect tag).skip
    intro _
    apply hp.bind
    intro a
    exact spends_pure (Nat.sub_self _)
  · exact spends_pure rfl

structure StmtRules (fuel : Nat) : Prop where
  stmt : Spends (stmt fuel) Stmt.weight
  block : Spends (block fuel) Stmt.weight
  stmts : Spends (stmts fuel) Stmt.weightAll

section Stmts

variable {fuel : Nat} (h : StmtRules fuel)

include h

private theorem spends_stmt : Spends (stmt (fuel + 1)) Stmt.weight := by
  unfold stmt
  apply spends_peek.skip
  intro start
  apply (spends_check _).skip
  intro declares
  split
  · apply (spends_expect _).bind
    intro _
    apply spends_ident.skip
    rintro ⟨name, pos⟩
    apply (spends_optional _ (typeRules fuel).type).bind
    intro t
    cases t with
    | some t =>
      apply (spends_optional _ (spends_expr fuel)).bind
      intro init
      apply (spends_expect _).skip
      intro _
      exact spends_pure (by simp only [Stmt.weight, Option.elim_some]; omega)
    | none =>
      apply (spends_expect _).skip
      intro _
      apply (spends_expr fuel).bind
      intro init
      apply (spends_expect _).skip
      intro _
      exact spends_pure (by simp only [Stmt.weight, Option.elim_some, Option.elim_none]; omega)
  apply (spends_check _).skip
  intro conditional
  split
  · apply (spends_expect _).bind
    intro _
    apply (spends_expect _).skip
    intro _
    apply (spends_expr fuel).bind
    intro test
    apply (spends_expect _).skip
    intro _
    apply h.stmt.bind
    intro yes
    apply (spends_check _).skip
    intro hasElse
    split
    · apply (spends_expect _).skip
      intro _
      apply h.stmt.bind
      intro no
      exact spends_pure (by simp only [Stmt.weight]; omega)
    · exact spends_pure (by simp only [Stmt.weight]; omega)
  apply (spends_check _).skip
  intro loops
  split
  · apply (spends_expect _).bind
    intro _
    apply (spends_expect _).skip
    intro _
    apply (spends_expr fuel).bind
    intro test
    apply (spends_expect _).skip
    intro _
    apply h.stmt.bind
    intro body
    exact spends_pure (by simp only [Stmt.weight]; omega)
  apply (spends_check _).skip
  intro opens
  split
  · exact h.block
  apply (spends_check _).skip
  intro returns
  split
  · apply (spends_expect _).bind
    intro _
    apply (spends_check _).skip
    intro ended
    split
    · apply (spends_expect _).skip
      intro _
      exact spends_pure (by simp [Stmt.weight])
    · apply (spends_expr fuel).bind
      intro e
      apply (spends_expect _).skip
      intro _
      exact spends_pure (by simp only [Stmt.weight, Option.elim_some]; omega)
  · apply (spends_expr fuel).bind
    intro e
    apply (spends_expect _).bind
    intro _
    exact spends_pure (by simp only [Stmt.weight]; omega)

private theorem spends_block : Spends (block (fuel + 1)) Stmt.weight := by
  unfold block
  apply (spends_expect _).bind
  intro _
  apply h.stmts.bind
  intro body
  apply (spends_expect _).skip
  intro _
  exact spends_pure (by simp only [Stmt.weight]; omega)

private theorem spends_stmts : Spends (stmts (fuel + 1)) Stmt.weightAll := by
  unfold stmts
  apply (spends_check _).skip
  intro closed
  split
  · exact spends_pure rfl
  · apply h.stmt.bind
    intro s
    apply h.stmts.bind
    intro rest
    exact spends_pure (by simp only [Stmt.weightAll]; omega)

end Stmts

theorem stmtRules (fuel : Nat) : StmtRules fuel := by
  induction fuel with
  | zero => exact ⟨spends_throw _, spends_throw _, spends_throw _⟩
  | succ fuel ih => exact ⟨spends_stmt ih, spends_block ih, spends_stmts ih⟩

theorem spends_definition (fuel : Nat) : Spends (definition fuel) Def.weight := by
  unfold definition
  apply (spends_expect _).bind
  intro start
  apply (spends_take? _).skip
  intro isObject
  split
  · apply spends_ident.skip
    rintro ⟨name, pos⟩
    apply (spends_expect _).skip
    intro _
    apply (spends_items fuel _).bind
    intro fields
    apply (spends_expect _).skip
    intro _
    apply (spends_distinct _).skip
    intro _
    exact spends_pure (by simp only [Def.weight]; omega)
  apply (spends_take? _).skip
  intro isFunc
  split
  · apply spends_ident.skip
    rintro ⟨name, pos⟩
    apply (spends_expect _).skip
    intro _
    apply (spends_items fuel _).bind
    intro params
    apply (spends_expect _).skip
    intro _
    apply (spends_distinct _).skip
    intro _
    apply (spends_optional _ (typeRules fuel).type).bind
    intro ret
    apply (stmtRules fuel).block.bind
    intro body
    -- a result type that is not written is paid for by the keyword
    cases ret with
    | none =>
      exact spends_pure (by
        simp only [Def.weight, Func.weight, Option.getD_none, TypeExpr.weight, Option.elim_none]
        omega)
    | some t =>
      exact spends_pure (by
        simp only [Def.weight, Func.weight, Option.getD_some, Option.elim_some]
        omega)
  · exact spends_failUnexpected

theorem spends_parts (fuel : Nat) :
    Spends (parts fuel) fun x => Def.weightAll x.1 + Stmt.weightAll x.2 := by
  induction fuel with
  | zero => exact spends_throw _
  | succ fuel ih =>
    unfold parts
    apply (spends_check _).skip
    intro ended
    split
    · exact spends_pure rfl
    apply (spends_check _).skip
    intro defining
    split
    · apply (spends_definition fuel).bind
      intro d
      apply ih.bind
      rintro ⟨defs, stmts⟩
      exact spends_pure (by simp only [Def.weightAll, List.map_cons, List.sum_cons]; omega)
    · apply (stmtRules fuel).stmt.bind
      intro s
      apply ih.bind
      rintro ⟨defs, stmts⟩
      exact spends_pure (by simp only [Stmt.weightAll]; omega)

theorem spends_module (fuel : Nat) (name : String) :
    Spends (module fuel name) fun m => m.weight + 1 := by
  unfold module
  apply (spends_parts fuel).bind
  rintro ⟨defs, stmts⟩
  apply (spends_expect _).bind
  intro _
  exact spends_pure (by simp only [Module.weight]; omega)

end Grammar

/-- A module weighs no more than its source text has characters. -/
theorem Module.weight_le_length {name source : String} {m : Module}
    (h : Module.ofSource name source = .ok m) : m.weight ≤ source.length := by
  unfold Module.ofSource at h
  split at h
  · cases h
  · next tokens htokens =>
    have htext := sum_weight_tokenize htokens
    unfold Module.ofTokens at h
    split at h
    · cases h
    · next c hc =>
      have hleft : Parse.left c ≤ (tokens.map Token.weight).sum := by
        unfold Cursor.ofTokens at hc
        split_ifs at hc
        cases hc
        exact Nat.le_refl _
      split at h
      · next c' hparse =>
        cases h
        have hspent : m.weight + 1 + Parse.left c' ≤ Parse.left c :=
          Grammar.spends_module _ name c m c' hparse
        omega
      · cases h

end EdeLang
