import EdeLang.Proofs.Syntax.Nodes
import EdeLang.Proofs.Typing.Lexical

/-!
# Checking follows the lexical rules

The checker keeps all scopes that it has ever made and finds them by their numbers. The scope that
it is in and those around it are the levels of a stack, which every visit uses and changes as the
rules say. A scope that it has left is not around any scope that it comes to later.
-/

namespace EdeLang

def Scope.level (s : Scope) : Lexical.Level := ⟨s.entries, s.ret⟩

namespace Scopes

open Lexical (Stack)

/-- A scope and those around it are the levels of a stack. -/
structure Shows (s : Scopes) (id : Nat) (c : Stack) : Prop where
  wf : s.WF
  lt : id < s.scopes.size
  view : (s.ancestors id).map Scope.level = c.levels

/-- No older scope but one has changed. -/
structure Kept (s : Scopes) (id : Nat) (s' : Scopes) : Prop where
  size_le : s.scopes.size ≤ s'.scopes.size
  same : ∀ j < s.scopes.size, j ≠ id → s'.get? j = s.get? j

theorem Kept.refl (s : Scopes) (id : Nat) : s.Kept id s := ⟨Nat.le_refl _, fun _ _ _ => rfl⟩

theorem Kept.trans {s s' s'' : Scopes} {id : Nat} (first : s.Kept id s') (second : s'.Kept id s'') :
    s.Kept id s'' where
  size_le := Nat.le_trans first.size_le second.size_le
  same j hj hne := (second.same j (Nat.lt_of_lt_of_le hj first.size_le) hne).trans
    (first.same j hj hne)

variable {s s' : Scopes} {id : Nat} {c c' : Stack}

theorem Shows.find? (h : s.Shows id c) (name : String) : s.find? id name = c.find? name := by
  rw [Stack.find?, ← h.view, List.findSome?_map]
  rfl

theorem Shows.returnType? (h : s.Shows id c) : s.returnType? id = c.returnType? := by
  rw [Stack.returnType?, ← h.view, List.findSome?_map]
  rfl

theorem Shows.variableType (h : s.Shows id c) (name : String) :
    s.variableType id name = c.var name := by
  rw [Scopes.variableType, Stack.var, h.find?]
  cases c.find? name with
  | none => rfl
  | some e => obtain ⟨_ | _ | _, type, pos⟩ := e <;> rfl

theorem Shows.signature (h : s.Shows id c) (name : String) :
    c.signature name = (s.signature? id name).elim (.error (.undefinedFunction name)) .ok := by
  rw [signature?, Stack.signature, h.find?]
  cases c.find? name with
  | none => rfl
  | some e => obtain ⟨_ | _ | _, _ | _ | _ | _ | _, pos⟩ := e <;> rfl

theorem Shows.object (h : s.Shows id c) (name : String) :
    c.object name = (s.object? id name).elim (.error (.undefinedObject name)) .ok := by
  rw [object?, Stack.object, h.find?]
  cases c.find? name with
  | none => rfl
  | some e => obtain ⟨_ | _ | _, _ | _ | _ | _ | _, pos⟩ := e <;> rfl

theorem Shows.exists_scope (h : s.Shows id c) : ∃ scope outer, s.get? id = some scope ∧
    s.ancestors id = scope :: outer ∧ scope.level = c.top ∧ outer.map Scope.level = c.below := by
  have hlt := h.lt
  have hscope : s.get? id = some s.scopes[id] := Array.getElem?_eq_getElem hlt
  have hview := h.view
  rw [ancestors_eq h.wf hscope] at hview
  obtain ⟨htop, hbelow⟩ := List.cons.inj hview
  exact ⟨_, _, hscope, ancestors_eq h.wf hscope, htop, hbelow⟩

theorem Shows.push (h : s.Shows id c) (ret : Option Ty) :
    (s.push ⟨some id, [], ret⟩).2.Shows (s.push ⟨some id, [], ret⟩).1 (c.enter ret) where
  wf := h.wf.push fun parent hparent => by
    obtain rfl : id = parent := by simpa using hparent
    exact h.lt
  lt := by simp
  view := by
    rw [ancestors_push h.wf h.lt rfl, List.map_cons, h.view]
    rfl

/-- After a scope inside has been left, the level on top is dropped. -/
theorem Shows.leave {scope : Scope} (h : s.Shows id c) (hwf : s'.WF)
    (hkept : (s.push scope).2.Kept (s.push scope).1 s') : s'.Shows id c ∧ s.Kept id s' := by
  have hsize : (s.push scope).2.scopes.size = s.scopes.size + 1 := size_push s scope
  have hle := hkept.size_le
  have hlt := h.lt
  have hsame : ∀ j < s.scopes.size, s'.get? j = s.get? j := by
    intro j hj
    have hne : j ≠ (s.push scope).1 := by
      rw [push_fst]
      omega
    rw [hkept.same j (by omega) hne]
    exact get?_push_of_lt hj
  have hview : s'.ancestors id = s.ancestors id :=
    ancestors_congr h.wf fun j hj => hsame j (by omega)
  exact ⟨⟨hwf, by omega, hview ▸ h.view⟩, by omega, fun j hj _ => hsame j hj⟩

theorem Shows.add_ok {name : String} {e : Entry} (h : s.Shows id c)
    (hdeclare : c.declare name e = .ok c') :
    ∃ s', s.add id name e = .ok s' ∧ s'.Shows id c' ∧ s.Kept id s' := by
  obtain ⟨scope, outer, hscope, hview, htop, hbelow⟩ := h.exists_scope
  have hnew : scope.find? name = none ∧
      c' = ⟨⟨(name, e) :: c.top.entries, c.top.ret⟩, c.below⟩ := by
    unfold Stack.declare at hdeclare
    rw [← htop] at hdeclare ⊢
    cases hfind : scope.level.entries.lookup name with
    | some earlier => simp [hfind] at hdeclare
    | none => exact ⟨hfind, by simpa [hfind] using hdeclare.symm⟩
  obtain ⟨hfind, rfl⟩ := hnew
  have hadd : ∃ s', s.add id name e = .ok s' := by
    simp [Scopes.add, findLocal?, hscope, hfind]
  obtain ⟨s', hs'⟩ := hadd
  obtain ⟨_, hid, hother, hsize⟩ := Scopes.add_ok hs' hscope
  refine ⟨s', hs', ⟨h.wf.add hs' hscope, hsize ▸ h.lt, ?_⟩, Nat.le_of_eq hsize.symm,
    fun j _ hne => hother j hne⟩
  rw [ancestors_add h.wf hs' hscope hview, List.map_cons, hbelow, ← htop]
  rfl

theorem Shows.add_error {name : String} {e : Entry} {d : Diagnostic} (h : s.Shows id c)
    (hdeclare : c.declare name e = .error d) :
    ∃ earlier, s.add id name e = .error earlier ∧
      d = (TypeError.idConflict name earlier).at e.pos := by
  obtain ⟨scope, outer, hscope, _, htop, _⟩ := h.exists_scope
  unfold Stack.declare at hdeclare
  rw [← htop] at hdeclare
  cases hfind : scope.level.entries.lookup name with
  | none => simp [hfind] at hdeclare
  | some earlier =>
    have hlocal : scope.find? name = some earlier := hfind
    refine ⟨earlier.pos, by simp [Scopes.add, findLocal?, hscope, hlocal], ?_⟩
    simpa [hfind] using hdeclare.symm

end Scopes

namespace Visit

open Lexical (require given)

variable {α β γ δ ρ σ : Type} {R : α → β → ρ → Prop} {R' : γ → δ → σ → Prop}

/-- The visit and the rule end alike: with results that are related, or with one diagnostic. -/
def Follows (R : α → β → ρ → Prop) (v : Visit α β) : Except Diagnostic ρ → Prop
  | .ok x => ∃ b, v.found = .ok b ∧ R v.node b x
  | .error d => v.found = .error (.diagnostic d)

def Both (a : α) (b : β) (x : α × β) : Prop := x = (a, b)

def Only (a : α) (_ : β) (x : α) : Prop := a = x

theorem Follows.andThen {v : Visit α β} {whole : α → γ} {next : α → β → Visit γ δ}
    {r : Except Diagnostic ρ} {rule : ρ → Except Diagnostic σ} (h : v.Follows R r)
    (hnext : ∀ a b x, R a b x → (next a b).Follows R' (rule x)) :
    (v.andThen whole next).Follows R' (r >>= rule) := by
  obtain ⟨node, found⟩ := v
  cases r with
  | error d =>
    obtain rfl : found = .error (.diagnostic d) := h
    rfl
  | ok x =>
    obtain ⟨b, rfl, hx⟩ := h
    exact hnext node b x hx

theorem Follows.ne_typedTwice {v : Visit α β} {r : Except Diagnostic ρ} (h : v.Follows R r) :
    v.found ≠ .error .typedTwice := by
  cases r with
  | error d =>
    have hfound : v.found = .error (.diagnostic d) := h
    simp [hfound]
  | ok x =>
    obtain ⟨b, hfound, _⟩ := h
    simp [hfound]

theorem follows_settle {info : Info} (whole : Info → γ) (type : Ty) (h : info.type = none) :
    (settle info whole type).Follows Both (.ok (whole (given info type), type)) := by
  rw [settle, h]
  exact ⟨type, rfl, rfl⟩

theorem follows_require {p : Prop} [Decidable p] {v : Visit α β} {node : α} {e : TypeError}
    {pos : Pos} {rule : Unit → Except Diagnostic ρ} (h : p → v.Follows R (rule ())) :
    (if p then v else fail node e pos).Follows R (require p e pos >>= rule) := by
  by_cases hp : p
  · rw [if_pos hp, require, if_pos hp]
    exact h hp
  · rw [if_neg hp, require, if_neg hp]
    rfl

theorem follows_optional {visit : α → Visit α β} {rule : α → Except Diagnostic (α × β)}
    {a : Option α} (h : ∀ x, a = some x → (visit x).Follows Both (rule x)) :
    (optional visit a).Follows Both (Lexical.optional rule a) := by
  cases a with
  | none => exact ⟨none, rfl, rfl⟩
  | some x =>
    refine (h x rfl).andThen ?_
    rintro x b _ rfl
    exact ⟨some b, rfl, rfl⟩

def outcome (v : Visit α β) : Except CheckError (α × β) := v.found.map fun b => (v.node, b)

theorem andThen_andThen {ε ζ : Type} (v : Visit α β) (whole : α → γ) (next : α → β → Visit γ δ)
    (whole' : γ → ε) (next' : γ → δ → Visit ε ζ) :
    (v.andThen whole next).andThen whole' next' =
      v.andThen (fun a => whole' (whole a)) fun a b => (next a b).andThen whole' next' := by
  obtain ⟨node, found⟩ := v
  cases found <;> rfl

end Visit

namespace Scopes

open Lexical (Stack outermost)
open Node Visit

variable {s : Scopes} {id : Nat} {c : Stack}

mutual

theorem resolve_follows (h : s.Shows id c) (t : TypeExpr) (hfresh : Fresh t.nodes) :
    (s.resolve id t).Follows Both (Lexical.typeExpr c t) := by
  cases t with
  | name info n =>
    have hcell : info.type = none := (fresh_cons.mp hfresh).1
    rw [resolve, Lexical.typeExpr, h.find?, Stack.typename]
    cases c.find? n with
    | none => rfl
    | some e =>
      obtain ⟨_ | _ | _, type, pos⟩ := e
      · rfl
      · exact follows_settle _ _ hcell
      · rfl
  | array info elem =>
    obtain ⟨hcell, helem⟩ := fresh_cons.mp hfresh
    rw [resolve, Lexical.typeExpr]
    refine (resolve_follows h elem helem).andThen ?_
    rintro elem type _ rfl
    exact follows_settle _ _ hcell
  | tuple info elems =>
    obtain ⟨hcell, helems⟩ := fresh_cons.mp hfresh
    rw [resolve, Lexical.typeExpr]
    refine (resolveAll_follows h elems helems).andThen ?_
    rintro elems types _ rfl
    exact follows_settle _ _ hcell
  | record info items =>
    obtain ⟨hcell, hitems⟩ := fresh_cons.mp hfresh
    rw [resolve, Lexical.typeExpr]
    refine (resolveItems_follows h items hitems).andThen ?_
    rintro items fields _ rfl
    exact follows_settle _ _ hcell
termination_by structural t

theorem resolveAll_follows (h : s.Shows id c) (ts : List TypeExpr)
    (hfresh : Fresh (TypeExpr.nodesAll ts)) :
    (s.resolveAll id ts).Follows Both (Lexical.typeExprs c ts) := by
  cases ts with
  | nil =>
    rw [resolveAll, Lexical.typeExprs]
    exact ⟨[], rfl, rfl⟩
  | cons t ts =>
    obtain ⟨ht, hts⟩ := fresh_append.mp hfresh
    rw [resolveAll, Lexical.typeExprs]
    refine (resolve_follows h t ht).andThen ?_
    rintro t type _ rfl
    refine (resolveAll_follows h ts hts).andThen ?_
    rintro ts types _ rfl
    exact ⟨type :: types, rfl, rfl⟩
termination_by structural ts

theorem resolveItems_follows (h : s.Shows id c) (items : List (Item TypeExpr))
    (hfresh : Fresh (TypeExpr.nodesItems items)) :
    (s.resolveItems id items).Follows Both (Lexical.items c items) := by
  cases items with
  | nil =>
    rw [resolveItems, Lexical.items]
    exact ⟨[], rfl, rfl⟩
  | cons item items =>
    obtain ⟨pos, name, t⟩ := item
    obtain ⟨ht, hitems⟩ := fresh_append.mp hfresh
    rw [resolveItems, Lexical.items]
    refine (resolve_follows h t ht).andThen ?_
    rintro t type _ rfl
    refine (resolveItems_follows h items hitems).andThen ?_
    rintro items fields _ rfl
    exact ⟨(name, type) :: fields, rfl, rfl⟩
termination_by structural items

end

mutual

theorem checkExpr_follows (h : s.Shows id c) (e : Expr) (hfresh : Fresh e.nodes) :
    (s.checkExpr id e).Follows Both (Lexical.expr c e) := by
  cases e with
  | literal info value =>
    have hcell : info.type = none := (fresh_cons.mp hfresh).1
    rw [checkExpr, Lexical.expr]
    exact follows_settle _ _ hcell
  | ident info name =>
    have hcell : info.type = none := (fresh_cons.mp hfresh).1
    rw [checkExpr, Lexical.expr, h.variableType]
    cases c.var name with
    | error e => rfl
    | ok type => exact follows_settle _ _ hcell
  | binop info op left right =>
    obtain ⟨hcell, hparts⟩ := fresh_cons.mp hfresh
    obtain ⟨hleft, hright⟩ := fresh_append.mp hparts
    rw [checkExpr, Lexical.expr]
    refine (checkExpr_follows h left hleft).andThen ?_
    rintro left l _ rfl
    refine (checkExpr_follows h right hright).andThen ?_
    rintro right r _ rfl
    cases hresult : op.resultType l r with
    | none =>
      simp only [hresult]
      rfl
    | some type =>
      simp only [hresult]
      exact follows_settle _ _ hcell
  | assign info name value =>
    obtain ⟨hcell, hvalue⟩ := fresh_cons.mp hfresh
    rw [checkExpr, Lexical.expr, h.variableType]
    cases c.var name with
    | error e => rfl
    | ok expected =>
      refine (checkExpr_follows h value hvalue).andThen ?_
      rintro value found _ rfl
      exact follows_require fun _ => follows_settle _ _ hcell
  | array info elems =>
    obtain ⟨hcell, helems⟩ := fresh_cons.mp hfresh
    cases elems with
    | nil =>
      rw [checkExpr, checkElems, Lexical.expr]
      rfl
    | cons first rest =>
      obtain ⟨hfirst, hrest⟩ := fresh_append.mp helems
      rw [checkExpr, checkElems, Lexical.expr, andThen_andThen]
      refine (checkExpr_follows h first hfirst).andThen ?_
      rintro first type _ rfl
      rw [andThen_andThen]
      refine (checkElems_follows h type rest hrest).andThen ?_
      rintro rest _ _ ⟨rfl, rfl⟩
      exact follows_settle (fun i => Expr.array i (first :: rest)) _ hcell
  | tuple info elems =>
    obtain ⟨hcell, helems⟩ := fresh_cons.mp hfresh
    rw [checkExpr, Lexical.expr]
    refine (checkExprs_follows h elems helems).andThen ?_
    rintro elems types _ rfl
    exact follows_settle _ _ hcell
  | object info name inits =>
    obtain ⟨hcell, hinits⟩ := fresh_cons.mp hfresh
    rw [checkExpr, Lexical.expr, h.object]
    cases s.object? id name with
    | none => rfl
    | some type =>
      refine (checkInits_follows h type [] inits hinits).andThen ?_
      rintro inits _ _ rfl
      exact follows_settle _ _ hcell
  | call info name args =>
    obtain ⟨hcell, hargs⟩ := fresh_cons.mp hfresh
    rw [checkExpr, Lexical.expr, h.signature]
    cases s.signature? id name with
    | none => rfl
    | some sig =>
      obtain ⟨params, ret⟩ := sig
      refine follows_require fun _ => ?_
      refine (checkArgs_follows h args params hargs).andThen ?_
      rintro args _ _ rfl
      exact follows_settle _ _ hcell
  | default info type =>
    obtain ⟨hcell, htype⟩ := fresh_cons.mp hfresh
    rw [checkExpr, Lexical.expr]
    refine (resolve_follows h type htype).andThen ?_
    rintro type found _ rfl
    exact follows_settle _ _ hcell
termination_by structural e

theorem checkExprs_follows (h : s.Shows id c) (es : List Expr)
    (hfresh : Fresh (Expr.nodesAll es)) :
    (s.checkExprs id es).Follows Both (Lexical.exprs c es) := by
  cases es with
  | nil =>
    rw [checkExprs, Lexical.exprs]
    exact ⟨[], rfl, rfl⟩
  | cons e es =>
    obtain ⟨he, hes⟩ := fresh_append.mp hfresh
    rw [checkExprs, Lexical.exprs]
    refine (checkExpr_follows h e he).andThen ?_
    rintro e type _ rfl
    refine (checkExprs_follows h es hes).andThen ?_
    rintro es types _ rfl
    exact ⟨type :: types, rfl, rfl⟩
termination_by structural es

theorem checkElems_follows (h : s.Shows id c) (type : Ty) (es : List Expr)
    (hfresh : Fresh (Expr.nodesAll es)) :
    (s.checkElems id (some type) es).Follows (fun a b x => a = x ∧ b = some type)
      (Lexical.elems c type es) := by
  cases es with
  | nil =>
    rw [checkElems, Lexical.elems]
    exact ⟨some type, rfl, rfl, rfl⟩
  | cons e es =>
    obtain ⟨he, hes⟩ := fresh_append.mp hfresh
    rw [checkElems, Lexical.elems]
    refine (checkExpr_follows h e he).andThen ?_
    rintro e found _ rfl
    refine follows_require fun _ => ?_
    refine (checkElems_follows h type es hes).andThen ?_
    rintro es _ _ ⟨rfl, rfl⟩
    exact ⟨some type, rfl, rfl, rfl⟩
termination_by structural es

theorem checkArgs_follows (h : s.Shows id c) (es : List Expr) (params : List (String × Ty))
    (hfresh : Fresh (Expr.nodesAll es)) :
    (s.checkArgs id es params).Follows Only (Lexical.arguments c es params) := by
  cases es with
  | nil =>
    rw [checkArgs, Lexical.arguments]
    · exact ⟨(), rfl, rfl⟩
    all_goals simp
  | cons e es =>
    cases params with
    | nil =>
      rw [checkArgs, Lexical.arguments]
      · exact ⟨(), rfl, rfl⟩
      all_goals simp
    | cons param params =>
      obtain ⟨name, expected⟩ := param
      obtain ⟨he, hes⟩ := fresh_append.mp hfresh
      rw [checkArgs, Lexical.arguments]
      refine (checkExpr_follows h e he).andThen ?_
      rintro e found _ rfl
      refine follows_require fun _ => ?_
      refine (checkArgs_follows h es params hes).andThen ?_
      rintro es _ _ rfl
      exact ⟨(), rfl, rfl⟩
termination_by structural es

theorem checkInits_follows (h : s.Shows id c) (type : Ty) (seen : List String)
    (inits : List (String × Expr)) (hfresh : Fresh (Expr.nodesInits inits)) :
    (s.checkInits id type seen inits).Follows Only (Lexical.fields c type seen inits) := by
  cases inits with
  | nil =>
    rw [checkInits, Lexical.fields]
    exact ⟨(), rfl, rfl⟩
  | cons init inits =>
    obtain ⟨field, e⟩ := init
    obtain ⟨he, hinits⟩ := fresh_append.mp hfresh
    rw [checkInits, Lexical.fields]
    by_cases hseen : field ∈ seen
    · rw [if_pos (List.contains_iff_mem.mpr hseen), Lexical.require, if_neg (not_not.mpr hseen)]
      rfl
    · rw [if_neg (mt List.contains_iff_mem.mp hseen), Lexical.require, if_pos hseen]
      cases hfield : type.field? field with
      | none => rfl
      | some expected =>
        refine (checkExpr_follows h e he).andThen ?_
        rintro e found _ rfl
        refine follows_require fun _ => ?_
        refine (checkInits_follows h type (field :: seen) inits hinits).andThen ?_
        rintro inits _ _ rfl
        exact ⟨(), rfl, rfl⟩
termination_by structural inits

end

theorem checkCondition_follows (h : s.Shows id c) {test : Expr} (hfresh : Fresh test.nodes) :
    (s.checkCondition id test).Follows Only (Lexical.condition c test) := by
  rw [checkCondition, Lexical.condition]
  refine (checkExpr_follows h test hfresh).andThen ?_
  rintro test found _ rfl
  exact follows_require fun _ => ⟨(), rfl, rfl⟩

/-- The rule gives the statement and its type, and the stack that the scopes show then. -/
def Leads {α : Type} (s : Scopes) (id : Nat) (a : α) (b : Ty × Scopes) (x : α × Ty × Stack) :
    Prop :=
  a = x.1 ∧ b.1 = x.2.1 ∧ b.2.Shows id x.2.2 ∧ s.Kept id b.2

theorem settleStmt_follows {s' : Scopes} {info : Info} {whole : Info → Stmt} {type : Ty}
    (hcell : info.type = none) (hshows : s'.Shows id c) (hkept : s.Kept id s') :
    (settleStmt s' info whole type).Follows (Leads s id)
      (.ok (whole (Lexical.given info type), type, c)) := by
  rw [settleStmt, settle, hcell]
  exact ⟨(type, s'), rfl, rfl, rfl, hshows, hkept⟩

theorem declaredType_eq (pos : Pos) (declared found : Option Ty) :
    Lexical.variableType pos declared found = Lexical.located pos (declaredType declared found) := by
  cases declared with
  | none => cases found <;> rfl
  | some expected =>
    cases found with
    | none => rfl
    | some found =>
      rw [Lexical.variableType, declaredType, Lexical.require]
      split <;> rfl

mutual

theorem checkStmt_follows {s : Scopes} {id : Nat} {c : Stack} (h : s.Shows id c) (st : Stmt)
    (hfresh : Fresh st.nodes) :
    (s.checkStmt id st).Follows (Leads s id) (Lexical.stmt c st) := by
  cases st with
  | var info name type init =>
    obtain ⟨hcell, hparts⟩ := fresh_cons.mp hfresh
    obtain ⟨htype, hinit⟩ := fresh_append.mp hparts
    rw [checkStmt, Lexical.stmt]
    refine (follows_optional fun t ht => resolve_follows h t (by simpa [ht] using htype)).andThen ?_
    rintro type declared _ rfl
    refine (follows_optional fun e he => checkExpr_follows h e (by simpa [he] using hinit)).andThen ?_
    rintro init found _ rfl
    dsimp only
    rw [declaredType_eq]
    cases declaredType declared found with
    | error e => rfl
    | ok declared =>
      cases hdeclare : c.declare name ⟨.variable, declared, info.pos⟩ with
      | error d =>
        obtain ⟨earlier, hadd, rfl⟩ := h.add_error hdeclare
        simp only [Lexical.located, bind, Except.bind, hadd, hdeclare]
        rfl
      | ok c' =>
        obtain ⟨s', hadd, hshows, hkept⟩ := h.add_ok hdeclare
        simp only [Lexical.located, bind, Except.bind, hadd, hdeclare]
        exact settleStmt_follows hcell hshows hkept
  | expr info e =>
    obtain ⟨hcell, he⟩ := fresh_cons.mp hfresh
    rw [checkStmt, Lexical.stmt]
    refine (checkExpr_follows h e he).andThen ?_
    rintro e type _ rfl
    exact settleStmt_follows hcell h (Kept.refl s id)
  | block info body =>
    obtain ⟨hcell, hbody⟩ := fresh_cons.mp hfresh
    rw [checkStmt, Lexical.stmt]
    -- the scope of the block is kept, but the stack after it is the one before it
    refine (checkStmts_follows (h.push none) .unit body hbody).andThen ?_
    rintro body ⟨last, s'⟩ ⟨_, _, c'⟩ ⟨rfl, rfl, hinner, hkept⟩
    obtain ⟨hshows, hkept⟩ := h.leave hinner.wf hkept
    exact settleStmt_follows hcell hshows hkept
  | cond info test yes no =>
    cases no with
    | none =>
      obtain ⟨hcell, hparts⟩ := fresh_cons.mp hfresh
      obtain ⟨htest, hyes⟩ := fresh_append.mp hparts
      rw [checkStmt, Lexical.stmt]
      refine (checkCondition_follows h htest).andThen ?_
      rintro test _ _ rfl
      refine (checkStmt_follows (h.push none) yes hyes).andThen ?_
      rintro yes ⟨type, s'⟩ ⟨_, _, c'⟩ ⟨rfl, rfl, hinner, hkept⟩
      obtain ⟨hshows, hkept⟩ := h.leave hinner.wf hkept
      exact settleStmt_follows hcell hshows hkept
    | some no =>
      obtain ⟨hcell, hparts⟩ := fresh_cons.mp hfresh
      obtain ⟨hfirst, hno⟩ := fresh_append.mp hparts
      obtain ⟨htest, hyes⟩ := fresh_append.mp hfirst
      rw [checkStmt, Lexical.stmt]
      refine (checkCondition_follows h htest).andThen ?_
      rintro test _ _ rfl
      refine (checkStmt_follows (h.push none) yes hyes).andThen ?_
      rintro yes ⟨yesType, s'⟩ ⟨_, _, c'⟩ ⟨rfl, rfl, hinner, hkept⟩
      obtain ⟨hshows, hkept⟩ := h.leave hinner.wf hkept
      refine (checkStmt_follows (hshows.push none) no hno).andThen ?_
      rintro no ⟨noType, s''⟩ ⟨_, _, c''⟩ ⟨rfl, rfl, hinner', hkept'⟩
      obtain ⟨hshows', hkept'⟩ := hshows.leave hinner'.wf hkept'
      exact follows_require fun _ => settleStmt_follows hcell hshows' (hkept.trans hkept')
  | loop info test body =>
    obtain ⟨hcell, hparts⟩ := fresh_cons.mp hfresh
    obtain ⟨htest, hbody⟩ := fresh_append.mp hparts
    rw [checkStmt, Lexical.stmt]
    refine (checkCondition_follows h htest).andThen ?_
    rintro test _ _ rfl
    refine (checkStmt_follows (h.push none) body hbody).andThen ?_
    rintro body ⟨type, s'⟩ ⟨_, _, c'⟩ ⟨rfl, rfl, hinner, hkept⟩
    obtain ⟨hshows, hkept⟩ := h.leave hinner.wf hkept
    exact settleStmt_follows hcell hshows hkept
  | ret info value =>
    obtain ⟨hcell, hvalue⟩ := fresh_cons.mp hfresh
    rw [checkStmt, Lexical.stmt, h.returnType?]
    cases c.returnType? with
    | none => rfl
    | some expected =>
      refine (follows_optional fun e he =>
        checkExpr_follows h e (by simpa [he] using hvalue)).andThen ?_
      rintro value found _ rfl
      cases value <;>
        exact follows_require fun _ => settleStmt_follows hcell h (Kept.refl s id)
termination_by structural st

theorem checkStmts_follows {s : Scopes} {id : Nat} {c : Stack} (h : s.Shows id c) (last : Ty)
    (sts : List Stmt) (hfresh : Fresh (Stmt.nodesAll sts)) :
    (s.checkStmts id last sts).Follows (Leads s id) (Lexical.stmts c last sts) := by
  cases sts with
  | nil =>
    rw [checkStmts, Lexical.stmts]
    exact ⟨(last, s), rfl, rfl, rfl, h, Kept.refl s id⟩
  | cons st sts =>
    obtain ⟨hst, hsts⟩ := fresh_append.mp hfresh
    rw [checkStmts, Lexical.stmts]
    refine (checkStmt_follows h st hst).andThen ?_
    rintro st ⟨type, s'⟩ ⟨_, _, c'⟩ ⟨rfl, rfl, hshows, hkept⟩
    refine (checkStmts_follows hshows type sts hsts).andThen ?_
    rintro sts ⟨last, s''⟩ ⟨_, _, c''⟩ ⟨rfl, rfl, hshows', hkept'⟩
    exact ⟨(last, s''), rfl, rfl, rfl, hshows', hkept.trans hkept'⟩
termination_by structural sts

end

/-- Declarations end alike: the scopes show the stack, or there is one diagnostic. -/
def Reaches (s : Scopes) (id : Nat) : Except Diagnostic Scopes → Except Diagnostic Stack → Prop
  | .ok s', .ok c => s'.Shows id c ∧ s.Kept id s'
  | .error d, .error d' => d = d'
  | _, _ => False

theorem Reaches.after {s' : Scopes} {r : Except Diagnostic Scopes} {r' : Except Diagnostic Stack}
    (h : s'.Reaches id r r') (hkept : s.Kept id s') : s.Reaches id r r' := by
  cases r with
  | error d => cases r' <;> exact h
  | ok s'' =>
    cases r' with
    | error d => exact h
    | ok c' => exact ⟨h.1, hkept.trans h.2⟩

theorem addParams_reaches (h : s.Shows id c) (items : List (Item TypeExpr))
    (types : List (String × Ty)) :
    s.Reaches id (s.addParams id items types) (Lexical.parameters c items types) := by
  induction items generalizing s c types with
  | nil =>
    rw [addParams, Lexical.parameters]
    · exact ⟨h, Kept.refl s id⟩
    all_goals simp
  | cons item items ih =>
    cases types with
    | nil =>
      rw [addParams, Lexical.parameters]
      · exact ⟨h, Kept.refl s id⟩
      all_goals simp
    | cons param types =>
      obtain ⟨name, type⟩ := param
      rw [addParams, Lexical.parameters]
      cases hdeclare : c.declare name ⟨.variable, type, item.pos⟩ with
      | error d =>
        obtain ⟨earlier, hadd, rfl⟩ := h.add_error hdeclare
        rw [hadd]
        rfl
      | ok c' =>
        obtain ⟨s', hadd, hshows, hkept⟩ := h.add_ok hdeclare
        rw [hadd]
        exact (ih hshows types).after hkept

theorem enterFunction_reaches (h : s.Shows id c) (f : Func) (pos : Pos)
    (types : List (String × Ty)) (ret : Ty) :
    ∃ entered, s.enterFunction id f pos types ret =
        entered.map (fun s' => ((s.function id ret).1, s')) ∧
      (s.function id ret).2.Reaches (s.function id ret).1 entered
        (Lexical.inside c pos f types ret) := by
  have hpush : (s.function id ret).2.Shows (s.function id ret).1 (c.enter (some ret)) :=
    h.push (some ret)
  rw [enterFunction, Lexical.inside]
  cases hdeclare : (c.enter (some ret)).declare f.name ⟨.function, .func types ret, pos⟩ with
  | error d =>
    obtain ⟨earlier, hadd, rfl⟩ := hpush.add_error hdeclare
    refine ⟨.error ((TypeError.idConflict f.name earlier).at pos), ?_, rfl⟩
    simp only [hadd]
    rfl
  | ok c' =>
    obtain ⟨s', hadd, hshows, hkept⟩ := hpush.add_ok hdeclare
    refine ⟨s'.addParams (s.function id ret).1 f.params types, by simp only [hadd], ?_⟩
    exact (addParams_reaches hshows f.params types).after hkept

theorem returns_eq (f : Func) (result : Ty) :
    Lexical.returns f result = (missingReturn? f result).elim (.ok ()) .error := by
  rw [Lexical.returns, missingReturn?]
  cases hfall : f.body.fallsOff? with
  | none => by_cases hunit : result == Ty.unit <;> simp [hunit, pure, Except.pure]
  | some exit => by_cases hunit : result == Ty.unit <;> simp [hunit, Lexical.require]

theorem declare_outermost {declared : List (String × Entry)} {name : String} (e : Entry)
    (h : (outermost declared).find? name = none) :
    (outermost declared).declare name e = .ok (outermost ((name, e) :: declared)) := by
  have htop : declared.lookup name = none := by
    rw [Stack.find?, Stack.levels, List.findSome?_cons] at h
    cases hlookup : (outermost declared).top.entries.lookup name with
    | none => exact hlookup
    | some earlier => simp [hlookup] at h
  simp only [Stack.declare, outermost, htop]

/-- The rule gives the node and its type, and the module declares one more name. -/
def Defines {α : Type} (id : Nat) (declared : List (String × Entry)) (a : α) (b : Ty × Scopes)
    (x : α × String × Entry) : Prop :=
  a = x.1 ∧ b.1 = x.2.2.type ∧ b.2.Shows id (outermost (x.2 :: declared))

theorem settleDef_follows {declared : List (String × Entry)} {info : Info} (whole : Info → Def)
    {type : Ty} {name : String} {e : Entry} (hcell : info.type = none) (htype : type = e.type)
    (hshows : s.Shows id (outermost ((name, e) :: declared))) :
    ((settle info whole type).andThen (fun d => d)
      fun d type => ⟨d, .ok (type, s)⟩).Follows (Defines id declared)
        (.ok (whole (Lexical.given info type), name, e)) := by
  rw [settle, hcell]
  exact ⟨(type, s), rfl, rfl, htype, hshows⟩

theorem checkFunc_follows {declared : List (String × Entry)} (h : s.Shows id (outermost declared))
    (pos : Pos) {f : Func} (hfresh : Fresh f.nodes) :
    (s.checkFunc id pos f).Follows
      (fun f' b x => Defines id declared f' b (x.1, x.1.name, ⟨.function, x.2, pos⟩))
      (Lexical.func declared pos f) := by
  obtain ⟨hsignature, hbody⟩ := fresh_append.mp hfresh
  obtain ⟨hparams, hret⟩ := fresh_append.mp hsignature
  rw [checkFunc, Lexical.func, Lexical.unused, h.find?]
  cases hunused : (outermost declared).find? f.name with
  | some earlier => rfl
  | none =>
    refine (resolveItems_follows h f.params hparams).andThen ?_
    rintro params types _ rfl
    refine (resolve_follows h f.ret hret).andThen ?_
    rintro ret result _ rfl
    obtain ⟨entered, henter, hreaches⟩ :=
      enterFunction_reaches h ⟨f.name, params, ret, f.body⟩ pos types result
    dsimp only
    rw [henter]
    cases hinside : Lexical.inside (outermost declared) pos ⟨f.name, params, ret, f.body⟩ types
      result with
    | error d =>
      cases entered with
      | error d' =>
        obtain rfl : d' = d := by simpa [hinside, Reaches] using hreaches
        rfl
      | ok s' => simp [hinside, Reaches] at hreaches
    | ok c =>
      cases entered with
      | error d' => simp [hinside, Reaches] at hreaches
      | ok s' =>
        rw [hinside] at hreaches
        obtain ⟨hshows, hkept⟩ := hreaches
        refine (checkStmt_follows hshows f.body hbody).andThen ?_
        rintro body ⟨type, s''⟩ ⟨_, _, c'⟩ ⟨rfl, rfl, hinner, hkept'⟩
        obtain ⟨houtside, _⟩ := h.leave hinner.wf (hkept.trans hkept')
        -- the body has declared nothing outside, so the name of the function is still unused
        dsimp only
        rw [returns_eq]
        cases missingReturn? ⟨f.name, params, ret, body⟩ result with
        | some d => rfl
        | none =>
          obtain ⟨s₃, hadd, hdefined, _⟩ := houtside.add_ok (declare_outermost _ hunused)
          rw [hadd]
          exact ⟨(.func types result, s₃), rfl, rfl, rfl, hdefined⟩

theorem checkDef_follows {declared : List (String × Entry)} (h : s.Shows id (outermost declared))
    (d : Def) (hfresh : Fresh d.nodes) :
    (s.checkDef id d).Follows (Defines id declared) (Lexical.definition declared d) := by
  cases d with
  | object info name fields =>
    obtain ⟨hcell, hfields⟩ := fresh_cons.mp hfresh
    rw [checkDef, Lexical.definition, Lexical.unused, h.find?]
    cases hunused : (outermost declared).find? name with
    | some earlier => rfl
    | none =>
      refine (resolveItems_follows h fields hfields).andThen ?_
      rintro fields types _ rfl
      obtain ⟨s', hadd, hdefined, _⟩ := h.add_ok
        (declare_outermost ⟨.typename, .object name types, info.pos⟩ hunused)
      rw [hadd]
      exact settleDef_follows _ hcell rfl hdefined
  | func info f =>
    obtain ⟨hcell, hf⟩ := fresh_cons.mp hfresh
    rw [checkDef, Lexical.definition]
    refine (checkFunc_follows h info.pos hf).andThen ?_
    rintro f ⟨type, s'⟩ ⟨_, _⟩ ⟨rfl, rfl, hdefined⟩
    exact settleDef_follows _ hcell rfl hdefined

theorem checkDefs_follows {declared : List (String × Entry)} (h : s.Shows id (outermost declared))
    (ds : List Def) (hfresh : Fresh (Def.nodesAll ds)) :
    (s.checkDefs id ds).Follows (fun ds' s' x => ds' = x.1 ∧ s'.Shows id (outermost x.2))
      (Lexical.definitions declared ds) := by
  induction ds generalizing s declared with
  | nil =>
    rw [checkDefs, Lexical.definitions]
    exact ⟨s, rfl, rfl, h⟩
  | cons d ds ih =>
    obtain ⟨hd, hds⟩ := fresh_append.mp hfresh
    rw [checkDefs, Lexical.definitions]
    refine (checkDef_follows h d hd).andThen ?_
    rintro d ⟨type, s'⟩ ⟨_, entry⟩ ⟨rfl, _, hdefined⟩
    refine (ih hdefined hds).andThen ?_
    rintro ds s'' ⟨_, declared'⟩ ⟨rfl, hshows⟩
    exact ⟨s'', rfl, rfl, hshows⟩

theorem shows_initial :
    (initial.child preludeId).2.Shows (initial.child preludeId).1 (outermost []) := by
  have hprelude : initial.Shows preludeId ⟨Scope.prelude.level, []⟩ := by
    refine ⟨?_, by decide, rfl⟩
    intro id scope hscope parent hparent
    have hlt : id < 1 := lt_of_get? hscope
    obtain rfl : id = 0 := by omega
    obtain rfl : Scope.prelude = scope := by simpa [get?, initial] using hscope
    cases hparent
  exact hprelude.push none

end Scopes

namespace Module

open Node Visit

theorem check_follows {m : Module} (hfresh : Fresh m.nodes) :
    m.check.Follows Both (Lexical.module m) := by
  obtain ⟨hcell, hparts⟩ := fresh_cons.mp hfresh
  obtain ⟨hdefs, hstmts⟩ := fresh_append.mp hparts
  rw [check, Lexical.module]
  refine (Scopes.checkDefs_follows Scopes.shows_initial m.defs hdefs).andThen ?_
  rintro defs s ⟨_, declared⟩ ⟨rfl, hshows⟩
  refine (Scopes.checkStmts_follows hshows .unit m.stmts hstmts).andThen ?_
  rintro stmts ⟨last, s'⟩ ⟨_, _, c⟩ ⟨rfl, rfl, _, _⟩
  have htype : m.type = none := hcell
  simp only [htype]
  exact ⟨.unit, rfl, rfl⟩

end Module

end EdeLang
