import EdeLang.Proofs.Typing.Scoping
import EdeLang.Proofs.Typing.Tasks

/-!
# Types on nodes

A second check of the tree that a check has left is refused as soon as it comes to a node with a
type. If the first one gave no type to any node, it left the tree as it was and the second one ends
like it. It is enough to look at the first part of a node that is visited: a visit that goes on
behind it has given it a type.
-/

namespace EdeLang

namespace Visit

variable {α β γ δ ι : Type}

def Refused (visit : α → Visit α β) (a : α) : Prop := (visit a).found = .error .typedTwice

/-- The visit fails and changes nothing, or a visit of what it leaves is refused. -/
def Once (visit : α → Visit α β) (a : α) : Prop :=
  ((visit a).node = a ∧ ∃ e, (visit a).found = .error e) ∨ Refused visit (visit a).node

theorem once_fail {visit : α → Visit α β} {a : α} {e : TypeError} {pos : Pos}
    (h : visit a = fail a e pos) : Once visit a := by
  rw [Once, h]
  exact .inl ⟨rfl, _, rfl⟩

theorem once_settle {visit : γ → Visit γ δ} (whole : Info → γ) {type : Ty} {result : Ty → δ}
    (info : Info) (h : ∀ i, i.pos = info.pos → visit (whole i) =
      (settle i whole type).andThen (fun y => y) fun y t => ⟨y, .ok (result t)⟩) :
    Once visit (whole info) := by
  obtain ⟨pos, cell⟩ := info
  cases cell with
  | some earlier =>
    left
    rw [h _ rfl]
    exact ⟨rfl, _, rfl⟩
  | none =>
    right
    rw [Refused, h ⟨pos, none⟩ rfl]
    show (visit (whole ⟨pos, some type⟩)).found = _
    rw [h ⟨pos, some type⟩ rfl]
    rfl

theorem ok_andThen (a : α) (b : β) (whole : α → γ) (next : α → β → Visit γ δ) :
    andThen ⟨a, .ok b⟩ whole next = next a b := rfl

theorem optional_some_andThen {visit : α → Visit α β} {a : α} {whole : Option α → γ}
    {next : Option α → Option β → Visit γ δ} :
    (optional visit (some a)).andThen whole next =
      (visit a).andThen (fun a => whole (some a)) fun a b => next (some a) (some b) :=
  andThen_andThen _ _ _ _ _

theorem optional_none_andThen {visit : α → Visit α β} {whole : Option α → γ}
    {next : Option α → Option β → Visit γ δ} :
    (optional visit none).andThen whole next = next none none := rfl

theorem settle_andThen (info : Info) (whole : Info → γ) (type : Ty) :
    (settle info whole type).andThen (fun y => y) (fun y t => ⟨y, .ok t⟩) =
      settle info whole type := by
  rw [settle]
  cases info.type <;> rfl

theorem node_andThen {P : γ → Prop} {v : Visit α β} {whole : α → γ} {next : α → β → Visit γ δ}
    (hwhole : P (whole v.node)) (hnext : ∀ b, P (next v.node b).node) :
    P (v.andThen whole next).node := by
  obtain ⟨node, found⟩ := v
  cases found with
  | error e => exact hwhole
  | ok b => exact hnext b

theorem exists_node_andThen {v : Visit α β} {whole : α → γ} {next : α → β → Visit γ δ}
    {form : ι → γ} (hwhole : ∀ a, ∃ i, whole a = form i)
    (hnext : ∀ a b, ∃ i, (next a b).node = form i) :
    ∃ i, (v.andThen whole next).node = form i :=
  node_andThen (P := fun y => ∃ i, y = form i) (hwhole _) (hnext _)

theorem exists_node_settle {info : Info} {whole : Info → γ} {type : Ty} {form : ι → γ}
    (h : ∀ i, ∃ j, whole i = form j) : ∃ j, (settle info whole type).node = form j := by
  rw [settle]
  cases info.type with
  | none => exact h _
  | some earlier => exact h _

/-- The visit of a node that starts with the visit of a part. A second visit comes to the part as
the first has left it, whatever has happened to the rest. -/
theorem Once.of_part {visit : γ → Visit γ δ} {part : α → Visit α β}
    {next : ι → α → β → Visit γ δ} {a : α} (h : Once part a) (whole : ι → α → γ)
    (hfirst : ∀ i, visit (whole i a) = (part a).andThen (whole i) (next i))
    (hsecond : ∀ i, visit (whole i (part a).node) =
      (part (part a).node).andThen (whole i) (next i))
    (hnext : ∀ i a b, ∃ j, (next i a b).node = whole j a) (i : ι) : Once visit (whole i a) := by
  rcases h with ⟨hnode, e, he⟩ | hrefused
  · left
    rw [hfirst, andThen, he]
    exact ⟨congrArg (whole i) hnode, e, rfl⟩
  · right
    have hleft : ∃ j, (visit (whole i a)).node = whole j (part a).node := by
      rw [hfirst, andThen]
      cases (part a).found with
      | error e => exact ⟨i, rfl⟩
      | ok b => exact hnext i (part a).node b
    obtain ⟨j, hj⟩ := hleft
    have hfound : (part (part a).node).found = .error .typedTwice := hrefused
    rw [hj, Refused, hsecond, andThen, hfound]

theorem Once.andThen {visit : γ → Visit γ δ} {part : α → Visit α β}
    {next : ι → α → β → Visit γ δ} {a : α} (h : Once part a) (whole : ι → α → γ)
    (heq : ∀ i a, visit (whole i a) = (part a).andThen (whole i) (next i))
    (hnext : ∀ i a b, ∃ j, (next i a b).node = whole j a) (i : ι) : Once visit (whole i a) :=
  h.of_part whole (fun i => heq i a) (fun i => heq i _) hnext i

end Visit

namespace Scopes

open Visit

variable {s : Scopes} {id : Nat}

theorem resolveAll_once {t : TypeExpr} (h : Once (s.resolve id) t) (ts : List TypeExpr) :
    Once (s.resolveAll id) (t :: ts) := by
  refine h.andThen (fun ts t => t :: ts) (fun ts t => by rw [resolveAll]) ?_ ts
  intro ts t type
  exact exists_node_andThen (fun ts => ⟨ts, rfl⟩) fun ts types => ⟨ts, rfl⟩

theorem resolveItems_once {t : TypeExpr} (h : Once (s.resolve id) t) (pos : Pos) (name : String)
    (items : List (Item TypeExpr)) : Once (s.resolveItems id) (⟨pos, name, t⟩ :: items) := by
  refine h.andThen (fun items t => Item.mk pos name t :: items)
    (fun items t => by rw [resolveItems]) ?_ items
  intro items t type
  exact exists_node_andThen (fun items => ⟨items, rfl⟩) fun items types => ⟨items, rfl⟩

theorem resolve_once (t : TypeExpr) : Once (s.resolve id) t := by
  cases t with
  | name info n =>
    cases hfind : s.find? id n with
    | none => exact once_fail (by rw [resolve, hfind])
    | some entry =>
      by_cases hkind : entry.kind = .typename
      · have hsettle : ∀ i, s.resolve id (.name i n) =
            settle i (fun i => .name i n) entry.type := by
          intro i
          rw [resolve, hfind]
          exact if_pos hkind
        exact once_settle (fun i => TypeExpr.name i n) info
          (fun i _ => by rw [hsettle, settle_andThen])
      · exact once_fail (by rw [resolve, hfind]; exact if_neg hkind)
  | array info elem =>
    refine (resolve_once elem).andThen TypeExpr.array (fun i a => by rw [resolve]) ?_ info
    intro i a b
    exact exists_node_settle fun j => ⟨j, rfl⟩
  | tuple info elems =>
    cases elems with
    | nil =>
      exact once_settle (fun i => TypeExpr.tuple i []) info
        (fun i _ => by rw [resolve, resolveAll, settle_andThen]; rfl)
    | cons t ts =>
      refine (resolveAll_once (resolve_once t) ts).andThen TypeExpr.tuple
        (fun i a => by rw [resolve]) ?_ info
      intro i a b
      exact exists_node_settle fun j => ⟨j, rfl⟩
  | record info items =>
    cases items with
    | nil =>
      exact once_settle (fun i => TypeExpr.record i []) info
        (fun i _ => by rw [resolve, resolveItems, settle_andThen]; rfl)
    | cons item items =>
      have hsize : sizeOf item.type < sizeOf item := by
        cases item
        simp only [Item.mk.sizeOf_spec]
        omega
      refine (resolveItems_once (resolve_once item.type) item.pos item.name items).andThen
        TypeExpr.record (fun i a => by rw [resolve]) ?_ info
      intro i a b
      exact exists_node_settle fun j => ⟨j, rfl⟩
termination_by sizeOf t

section Exprs

variable {e : Expr} (h : Once (s.checkExpr id) e)

include h

theorem checkExprs_once (es : List Expr) : Once (s.checkExprs id) (e :: es) := by
  refine h.andThen (fun es e => e :: es) (fun es e => by rw [checkExprs]) ?_ es
  intro es e type
  exact exists_node_andThen (fun es => ⟨es, rfl⟩) fun es types => ⟨es, rfl⟩

theorem checkElems_once (es : List Expr) : Once (s.checkElems id none) (e :: es) := by
  refine h.andThen (fun es e => e :: es) (fun es e => by rw [checkElems]) ?_ es
  intro es e type
  exact exists_node_andThen (fun es => ⟨es, rfl⟩) fun es types => ⟨es, rfl⟩

theorem checkArgs_once (es : List Expr) (param : String × Ty) (params : List (String × Ty)) :
    Once (fun es => s.checkArgs id es (param :: params)) (e :: es) := by
  refine h.andThen (fun es e => e :: es) (fun es e => by rw [checkArgs]) ?_ es
  intro es e found
  by_cases hsame : found == param.2
  · rw [if_pos hsame]
    exact exists_node_andThen (fun es => ⟨es, rfl⟩) fun es _ => ⟨es, rfl⟩
  · rw [if_neg hsame]
    exact ⟨es, rfl⟩

theorem checkInits_once (type : Ty) (field : String) (inits : List (String × Expr)) :
    Once (s.checkInits id type []) ((field, e) :: inits) := by
  have hnew : ¬ ([] : List String).contains field = true := by simp
  cases hfield : type.field? field with
  | none => exact once_fail (by rw [checkInits, if_neg hnew, hfield])
  | some expected =>
    refine h.andThen (fun inits e => (field, e) :: inits)
      (fun inits e => by rw [checkInits, if_neg hnew, hfield]) ?_ inits
    intro inits e found
    by_cases hsame : found == expected
    · rw [if_pos hsame]
      exact exists_node_andThen (fun inits => ⟨inits, rfl⟩) fun inits _ => ⟨inits, rfl⟩
    · rw [if_neg hsame]
      exact ⟨inits, rfl⟩

theorem checkCondition_once : Once (s.checkCondition id) e := by
  refine h.andThen (fun (_ : Unit) e => e) (fun _ e => by rw [checkCondition]) ?_ ()
  intro _ e found
  by_cases hbool : found == Ty.bool
  · rw [if_pos hbool]
    exact ⟨(), rfl⟩
  · rw [if_neg hbool]
    exact ⟨(), rfl⟩

end Exprs

theorem length_checkArgs (es : List Expr) (params : List (String × Ty)) :
    (s.checkArgs id es params).node.length = es.length := by
  induction es generalizing params with
  | nil =>
    rw [checkArgs]
    simp
  | cons e es ih =>
    cases params with
    | nil =>
      rw [checkArgs]
      simp
    | cons param params =>
      obtain ⟨name, expected⟩ := param
      rw [checkArgs]
      refine node_andThen (P := fun es' : List Expr => es'.length = (e :: es).length) rfl
        fun found => ?_
      split
      · have hrest : ∀ e' : Expr, (e' :: (s.checkArgs id es params).node).length =
            (e :: es).length := fun e' => by rw [List.length_cons, ih, List.length_cons]
        exact node_andThen (P := fun es' : List Expr => es'.length = (e :: es).length) (hrest _)
          fun _ => hrest _
      · rfl

theorem checkExpr_once (e : Expr) : Once (s.checkExpr id) e := by
  cases e with
  | literal info value =>
    exact once_settle (fun i => Expr.literal i value) info
      (fun i _ => by rw [checkExpr, settle_andThen])
  | ident info name =>
    cases hvar : s.variableType id name with
    | error e => exact once_fail (by rw [checkExpr, hvar])
    | ok type =>
      exact once_settle (fun i => Expr.ident i name) info
        (fun i _ => by rw [checkExpr, hvar, settle_andThen])
  | binop info op left right =>
    refine (checkExpr_once left).andThen (fun (x : Info × Expr) l => Expr.binop x.1 op l x.2)
      (fun x l => by rw [checkExpr]) ?_ (info, right)
    intro x l leftType
    refine exists_node_andThen (fun r => ⟨(x.1, r), rfl⟩) fun r rightType => ?_
    cases op.resultType leftType rightType with
    | none => exact ⟨(x.1, r), rfl⟩
    | some type => exact exists_node_settle fun j => ⟨(j, r), rfl⟩
  | assign info name value =>
    cases hvar : s.variableType id name with
    | error e => exact once_fail (by rw [checkExpr, hvar])
    | ok expected =>
      refine (checkExpr_once value).andThen (fun i v => Expr.assign i name v)
        (fun i v => by rw [checkExpr, hvar]) ?_ info
      intro i v found
      by_cases hsame : expected == found
      · rw [if_pos hsame]
        exact exists_node_settle fun j => ⟨j, rfl⟩
      · rw [if_neg hsame]
        exact ⟨i, rfl⟩
  | array info elems =>
    cases elems with
    | nil => exact once_fail (by rw [checkExpr, checkElems]; rfl)
    | cons e es =>
      refine (checkElems_once (checkExpr_once e) es).andThen Expr.array
        (fun i a => by rw [checkExpr]) ?_ info
      intro i a type
      cases type with
      | none => exact ⟨i, rfl⟩
      | some type => exact exists_node_settle fun j => ⟨j, rfl⟩
  | tuple info elems =>
    cases elems with
    | nil =>
      exact once_settle (fun i => Expr.tuple i []) info
        (fun i _ => by rw [checkExpr, checkExprs, settle_andThen]; rfl)
    | cons e es =>
      refine (checkExprs_once (checkExpr_once e) es).andThen Expr.tuple
        (fun i a => by rw [checkExpr]) ?_ info
      intro i a types
      exact exists_node_settle fun j => ⟨j, rfl⟩
  | object info name inits =>
    cases hobject : s.object? id name with
    | none => exact once_fail (by rw [checkExpr, hobject])
    | some type =>
      cases inits with
      | nil =>
        exact once_settle (fun i => Expr.object i name []) info
          (fun i _ => by rw [settle_andThen]; simp only [checkExpr, hobject, checkInits]; rfl)
      | cons init inits =>
        have hsize : sizeOf init.2 < sizeOf init := by
          cases init
          simp only [Prod.mk.sizeOf_spec]
          omega
        refine (checkInits_once (checkExpr_once init.2) type init.1 inits).andThen
          (fun i inits => Expr.object i name inits) (fun i inits => by rw [checkExpr, hobject]) ?_ info
        intro i a _
        exact exists_node_settle fun j => ⟨j, rfl⟩
  | call info name args =>
    cases hsig : s.signature? id name with
    | none => exact once_fail (by rw [checkExpr, hsig])
    | some sig =>
      obtain ⟨params, ret⟩ := sig
      by_cases harity : params.length = args.length
      · cases args with
        | nil =>
          exact once_settle (fun i => Expr.call i name []) info (fun i _ => by
            rw [settle_andThen, checkExpr, hsig]
            simp only [if_pos harity]
            rw [checkArgs]
            · rfl
            · simp)
        | cons e es =>
          cases params with
          | nil => simp at harity
          | cons param params =>
            -- the arguments keep their number, so the second visit comes to them too
            have hargs := checkArgs_once (checkExpr_once e) es param params
            refine hargs.of_part (fun i args => Expr.call i name args)
              (fun i => by rw [checkExpr, hsig]; exact if_pos harity)
              (fun i => by rw [checkExpr, hsig]; exact if_pos (by rw [length_checkArgs]; exact harity))
              ?_ info
            intro i args _
            exact exists_node_settle fun j => ⟨j, rfl⟩
      · exact once_fail (by rw [checkExpr, hsig]; exact if_neg harity)
  | default info type =>
    refine (resolve_once type).andThen Expr.default (fun i a => by rw [checkExpr]) ?_ info
    intro i a b
    exact exists_node_settle fun j => ⟨j, rfl⟩
termination_by sizeOf e

theorem exists_node_settleStmt {ι : Type} {info : Info} {whole : Info → Stmt} {type : Ty}
    {form : ι → Stmt} (h : ∀ i, ∃ j, whole i = form j) :
    ∃ j, (settleStmt s info whole type).node = form j := by
  have hsettle : ∃ j, (settle info whole type).node = form j := exists_node_settle h
  rw [settleStmt]
  exact node_andThen (P := fun y => ∃ j, y = form j) hsettle fun _ => hsettle

theorem checkStmts_once {st : Stmt} (h : Once (s.checkStmt id) st) (last : Ty) (sts : List Stmt) :
    Once (s.checkStmts id last) (st :: sts) := by
  refine h.andThen (fun sts st => st :: sts) (fun sts st => by rw [checkStmts]) ?_ sts
  intro sts st found
  exact exists_node_andThen (fun sts => ⟨sts, rfl⟩) fun sts _ => ⟨sts, rfl⟩

theorem checkVar_once (info : Info) (name : String) (type : Option TypeExpr) (init : Option Expr) :
    Once (s.checkStmt id) (.var info name type init) := by
  cases type with
  | some t =>
    refine (resolve_once t).andThen
      (fun (x : Info × Option Expr) t => Stmt.var x.1 name (some t) x.2)
      (fun x t => by rw [checkStmt]; exact optional_some_andThen) ?_ (info, init)
    intro x t type
    refine exists_node_andThen (fun init => ⟨(x.1, init), rfl⟩) fun init found => ?_
    split
    · exact ⟨(x.1, init), rfl⟩
    · split
      · exact ⟨(x.1, init), rfl⟩
      · exact exists_node_settleStmt fun j => ⟨(j, init), rfl⟩
  | none =>
    cases init with
    | none => exact once_fail (by rw [checkStmt]; rfl)
    | some e =>
      refine (checkExpr_once e).andThen (fun i e => Stmt.var i name none (some e))
        (fun i e => by rw [checkStmt, optional_none_andThen]; exact optional_some_andThen) ?_ info
      intro i e found
      split
      · exact ⟨i, rfl⟩
      · split
        · exact ⟨i, rfl⟩
        · exact exists_node_settleStmt fun j => ⟨j, rfl⟩

theorem checkStmt_once (st : Stmt) {s : Scopes} {id : Nat} : Once (s.checkStmt id) st := by
  cases st with
  | var info name type init => exact checkVar_once info name type init
  | expr info e =>
    refine (checkExpr_once e).andThen Stmt.expr (fun i e => by rw [checkStmt]) ?_ info
    intro i e type
    exact exists_node_settleStmt fun j => ⟨j, rfl⟩
  | block info body =>
    cases body with
    | nil => exact once_settle (fun i => Stmt.block i []) info (fun i _ => by rw [checkStmt]; rfl)
    | cons st sts =>
      refine (checkStmts_once (checkStmt_once st) .unit sts).andThen Stmt.block
        (fun i body => by rw [checkStmt]) ?_ info
      intro i body found
      exact exists_node_settleStmt fun j => ⟨j, rfl⟩
  | cond info test yes no =>
    cases no with
    | none =>
      refine (checkCondition_once (checkExpr_once test)).andThen
        (fun (x : Info × Stmt) test => Stmt.cond x.1 test x.2 none)
        (fun x test => by rw [checkStmt]) ?_ (info, yes)
      intro x test _
      refine exists_node_andThen (fun yes => ⟨(x.1, yes), rfl⟩) fun yes found => ?_
      exact exists_node_settleStmt fun j => ⟨(j, yes), rfl⟩
    | some no =>
      refine (checkCondition_once (checkExpr_once test)).andThen
        (fun (x : Info × Stmt × Stmt) test => Stmt.cond x.1 test x.2.1 (some x.2.2))
        (fun x test => by rw [checkStmt]) ?_ (info, yes, no)
      intro x test _
      refine exists_node_andThen (fun yes => ⟨(x.1, yes, x.2.2), rfl⟩) fun yes yesFound => ?_
      refine exists_node_andThen (fun no => ⟨(x.1, yes, no), rfl⟩) fun no noFound => ?_
      dsimp only
      split
      · exact exists_node_settleStmt fun j => ⟨(j, yes, no), rfl⟩
      · exact ⟨(x.1, yes, no), rfl⟩
  | loop info test body =>
    refine (checkCondition_once (checkExpr_once test)).andThen
      (fun (x : Info × Stmt) test => Stmt.loop x.1 test x.2) (fun x test => by rw [checkStmt]) ?_
      (info, body)
    intro x test _
    refine exists_node_andThen (fun body => ⟨(x.1, body), rfl⟩) fun body found => ?_
    exact exists_node_settleStmt fun j => ⟨(j, body), rfl⟩
  | ret info value =>
    cases hreturn : s.returnType? id with
    | none => exact once_fail (by rw [checkStmt, hreturn])
    | some expected =>
      cases value with
      | none =>
        by_cases hunit : Ty.unit == expected
        · exact once_settle (fun i => Stmt.ret i none) info
            (fun i _ => by rw [checkStmt, hreturn]; exact if_pos hunit)
        · exact once_fail (by rw [checkStmt, hreturn]; exact if_neg hunit)
      | some e =>
        refine (checkExpr_once e).andThen (fun i e => Stmt.ret i (some e))
          (fun i e => by rw [checkStmt, hreturn]; exact optional_some_andThen) ?_ info
        intro i e found
        split
        · exact exists_node_settleStmt fun j => ⟨j, rfl⟩
        · exact ⟨i, rfl⟩

theorem checkFunc_once (pos : Pos) (f : Func) : Once (s.checkFunc id pos) f := by
  obtain ⟨name, params, ret, body⟩ := f
  cases hfind : s.find? id name with
  | some earlier => exact once_fail (by rw [checkFunc, hfind])
  | none =>
    cases params with
    | nil =>
      refine (resolve_once ret).andThen (fun body ret => Func.mk name [] ret body)
        (fun body ret => by rw [checkFunc, hfind, resolveItems]; dsimp only [ok_andThen]) ?_ body
      intro body ret result
      split
      · exact ⟨body, rfl⟩
      · refine exists_node_andThen (fun body => ⟨body, rfl⟩) fun body found => ?_
        split
        · exact ⟨body, rfl⟩
        · split
          · exact ⟨body, rfl⟩
          · exact ⟨body, rfl⟩
    | cons item items =>
      refine (resolveItems_once (resolve_once item.type) item.pos item.name items).andThen
        (fun (x : TypeExpr × Stmt) params => Func.mk name params x.1 x.2)
        (fun x params => by rw [checkFunc, hfind]; dsimp only) ?_ (ret, body)
      intro x params fields
      refine exists_node_andThen (fun ret => ⟨(ret, x.2), rfl⟩) fun ret result => ?_
      split
      · exact ⟨(ret, x.2), rfl⟩
      · refine exists_node_andThen (fun body => ⟨(ret, body), rfl⟩) fun body found => ?_
        split
        · exact ⟨(ret, body), rfl⟩
        · split
          · exact ⟨(ret, body), rfl⟩
          · exact ⟨(ret, body), rfl⟩

theorem checkDef_once (d : Def) : Once (s.checkDef id) d := by
  cases d with
  | object info name fields =>
    cases hfind : s.find? id name with
    | some earlier => exact once_fail (by rw [checkDef, hfind])
    | none =>
      cases fields with
      | nil =>
        cases hadd : s.add id name ⟨.typename, .object name [], info.pos⟩ with
        | error earlier =>
          exact once_fail (by rw [checkDef, hfind, resolveItems]; dsimp only [ok_andThen]; rw [hadd])
        | ok s' =>
          exact once_settle (fun i => Def.object i name []) info (fun i hi => by
            rw [checkDef, hfind, resolveItems]
            dsimp only [ok_andThen]
            rw [hi, hadd])
      | cons item items =>
        refine (resolveItems_once (resolve_once item.type) item.pos item.name items).andThen
          (fun i fields => Def.object i name fields) (fun i fields => by rw [checkDef, hfind]) ?_ info
        intro i fields types
        split
        · exact ⟨i, rfl⟩
        · refine node_andThen (P := fun y => ∃ j, y = Def.object j name fields) ?_ fun _ => ?_
          · exact exists_node_settle fun j => ⟨j, rfl⟩
          · exact exists_node_settle fun j => ⟨j, rfl⟩
  | func info f =>
    obtain ⟨pos, cell⟩ := info
    refine (checkFunc_once pos f).andThen (fun cell f => Def.func ⟨pos, cell⟩ f)
      (fun cell f => by rw [checkDef]) ?_ cell
    intro cell f found
    have hsettle : ∃ j, (settle ⟨pos, cell⟩ (fun i => Def.func i f) found.1).node =
        Def.func ⟨pos, j⟩ f := by
      cases cell with
      | none => exact ⟨some found.1, rfl⟩
      | some earlier => exact ⟨some earlier, rfl⟩
    exact node_andThen (P := fun y => ∃ j, y = Def.func ⟨pos, j⟩ f) hsettle fun _ => hsettle

theorem checkDefs_once (d : Def) (ds : List Def) : Once (s.checkDefs id) (d :: ds) := by
  refine (checkDef_once d).andThen (fun ds d => d :: ds) (fun ds d => by rw [checkDefs]) ?_ ds
  intro ds d found
  exact exists_node_andThen (fun ds => ⟨ds, rfl⟩) fun ds _ => ⟨ds, rfl⟩

end Scopes

theorem Module.check_once (m : Module) : Visit.Once Module.check m := by
  obtain ⟨name, defs, stmts, type⟩ := m
  cases defs with
  | cons d ds =>
    refine (Scopes.checkDefs_once d ds).andThen
      (fun (x : List Stmt × Option Ty) defs => Module.mk name defs x.1 x.2)
      (fun x defs => by rw [check]; dsimp only) ?_ (stmts, type)
    intro x defs s
    refine Visit.exists_node_andThen (fun stmts => ⟨(stmts, x.2), rfl⟩) fun stmts _ => ?_
    split
    · exact ⟨(stmts, x.2), rfl⟩
    · exact ⟨(stmts, some .unit), rfl⟩
  | nil =>
    cases stmts with
    | cons st sts =>
      refine (Scopes.checkStmts_once (Scopes.checkStmt_once st) .unit sts).andThen
        (fun type stmts => Module.mk name [] stmts type)
        (fun type stmts => by rw [check]; dsimp only; rw [Scopes.checkDefs, Visit.ok_andThen]) ?_ type
      intro type stmts _
      cases type with
      | some earlier => exact ⟨some earlier, rfl⟩
      | none => exact ⟨some .unit, rfl⟩
    | nil =>
      cases type with
      | none => exact .inr rfl
      | some type => exact .inl ⟨rfl, _, rfl⟩

namespace Module

/-- Checking a module that was read from tokens is not refused. If it succeeds, every node has been
visited once and carries the type that its visit returned. A second check of what it leaves is
refused just if some node has a type by then, and ends like the first one otherwise. -/
theorem check_cells {name : String} {tokens : List Token} {m : Module}
    (h : Module.ofTokens name tokens = .ok m) :
    m.check.found ≠ .error .typedTwice ∧
      (∀ type, m.check.found = .ok type → Task.Records m.tasks m.nodes m.check.node.nodes) ∧
      (m.check.node.check.found = .error .typedTwice ↔
        ∃ n ∈ m.check.node.nodes, n.cell ≠ none) ∧
      (∀ type, m.check.found = .ok type → m.check.node.check.found = .error .typedTwice) ∧
      (Node.Fresh m.check.node.nodes → ∃ d, m.check.found = .error (.diagnostic d) ∧
        m.check.node.check.found = .error (.diagnostic d)) ∧
      CheckError.typedTwice.message = "node type assigned twice" := by
  have hfresh := fresh_of_tokens h
  have hfirst : m.check.found ≠ .error .typedTwice := (check_follows hfresh).ne_typedTwice
  have hsecond : Node.Fresh m.check.node.nodes → m.check.node.check.found ≠ .error .typedTwice :=
    fun hleft => (check_follows hleft).ne_typedTwice
  have honce := check_once m
  refine ⟨hfirst, fun type hok => ?_, ⟨fun hrefused => ?_, fun hset => ?_⟩, fun type hok => ?_,
    fun hleft => ?_, rfl⟩
  · have hcheck : m.check = ⟨m.check.node, .ok type⟩ := by rw [← hok]
    exact check_records hcheck
  · by_contra hnone
    exact hsecond (fun n hn => by_contra fun hcell => hnone ⟨n, hn, hcell⟩) hrefused
  · obtain ⟨n, hn, hcell⟩ := hset
    rcases honce with ⟨hnode, _⟩ | hrefused
    · rw [hnode] at hn
      exact absurd (hfresh n hn) hcell
    · exact hrefused
  · rcases honce with ⟨_, e, he⟩ | hrefused
    · rw [hok] at he
      cases he
    · exact hrefused
  · rcases honce with ⟨hnode, e, he⟩ | hrefused
    · cases e with
      | typedTwice => exact absurd he hfirst
      | diagnostic d =>
        refine ⟨d, he, ?_⟩
        rw [hnode]
        exact he
    · exact absurd hrefused (hsecond hleft)

end Module

/-- A text with an initial value and a tuple, and a statement that is never reached. -/
def deadText : String :=
  "def object P\x7bx: int\x7d def func f(b: (bool, int)): int \x7breturn 6; P\x7bx = 1\x7d;\x7d " ++
  "f((true, 2));"

theorem check_cells_texts :
    (∃ tokens m, tokenize deadText false = .ok tokens ∧ Module.ofTokens "dead" tokens = .ok m ∧
      m.nodes.length = 19 ∧ Task.Records m.tasks m.nodes m.check.node.nodes ∧
      m.check.node.check.found = .error .typedTwice) ∧
    ∃ tokens m d, tokenize "y;" false = .ok tokens ∧ Module.ofTokens "name" tokens = .ok m ∧
      m.check.found = .error (.diagnostic d) ∧
      m.check.node.check.found = .error (.diagnostic d) := by
  have hdead : (Module.ofSource "dead" deadText).toOption.any (fun m =>
      m.nodes.length = 19 && m.check.found.isOk) = true := by
    decide +kernel
  have hname : (Module.ofSource "name" "y;").toOption.any (fun m =>
      m.check.node.nodes.all fun n => n.cell.isNone) = true := by
    decide +kernel
  constructor
  · obtain ⟨tokens, m, htokens, hm, hp⟩ := Module.exists_of_source hdead
    obtain ⟨hlength, hok⟩ := Bool.and_eq_true_iff.mp hp
    obtain ⟨_, hrecords, _, htwice, _⟩ := Module.check_cells hm
    cases hfound : m.check.found with
    | error e => simp [hfound, Except.isOk, Except.toBool] at hok
    | ok type =>
      exact ⟨tokens, m, htokens, hm, of_decide_eq_true hlength, hrecords type hfound,
        htwice type hfound⟩
  · obtain ⟨tokens, m, htokens, hm, hp⟩ := Module.exists_of_source hname
    have hfresh : Node.Fresh m.check.node.nodes := fun n hn =>
      Option.isNone_iff_eq_none.mp (List.all_eq_true.mp hp n hn)
    obtain ⟨_, _, _, _, hsame, _⟩ := Module.check_cells hm
    obtain ⟨d, hfirst, hsecond⟩ := hsame hfresh
    exact ⟨tokens, m, d, htokens, hm, hfirst, hsecond⟩

end EdeLang
