import EdeLang.Proofs.Typing.Inhabitants
import EdeLang.Proofs.Typing.Judgement
import EdeLang.Proofs.Typing.Returns

/-!
# Type soundness of evaluation

In an environment that has the variables of a context, a typed expression evaluates to a value
of its type, unless its evaluation divides by zero or needs more fuel. A typed statement leaves
an environment with the variables of the context after it, or returns a value of the result type
of its function.
-/

namespace EdeLang

/-- The result has a property, or is an error that a typed program may end with. -/
def Sound {α : Type} (r : Except Halt α) (Q : α → Prop) : Prop :=
  (∃ a, r = .ok a ∧ Q a) ∨ ∃ h, r = .error h ∧ ∀ f, h ≠ .fault f

namespace Sound

variable {α β : Type} {r : Except Halt α} {P Q : α → Prop}

theorem ok {a : α} (h : P a) : Sound (.ok a) P := .inl ⟨a, rfl, h⟩

theorem error {h : Halt} (hh : ∀ f, h ≠ .fault f) : Sound (.error h) P := .inr ⟨h, rfl, hh⟩

theorem map {g : α → β} {R : β → Prop} (h : Sound r P) (hg : ∀ a, P a → R (g a)) :
    Sound (r.map g) R := by
  rcases h with ⟨a, rfl, ha⟩ | ⟨e, rfl, he⟩
  · exact .ok (hg a ha)
  · exact .error he

theorem imp (h : Sound r P) (hPQ : ∀ a, P a → Q a) : Sound r Q := by
  rcases h with ⟨a, rfl, ha⟩ | ⟨e, rfl, he⟩
  · exact .ok (hPQ a ha)
  · exact .error he

theorem ne_fault (h : Sound r P) (f : EvalFault) : r ≠ .error (.fault f) := by
  rintro rfl
  rcases h with ⟨a, ha, _⟩ | ⟨e, he, hne⟩
  · simp at ha
  · exact hne f (by simpa using he.symm)

theorem of_ok {a : α} (h : Sound r P) (hr : r = .ok a) : P a := by
  subst hr
  rcases h with ⟨b, hb, hP⟩ | ⟨e, he, _⟩
  · obtain rfl : a = b := by simpa using hb
    exact hP
  · simp at he

end Sound

namespace Env

/-- The environment binds the variables of a context, each to a value of its type. -/
def Typed (env : Env) (ctx : Context) : Prop :=
  List.Forall₂ (List.Forall₂ fun b v => b.1 = v.1 ∧ v.2.Has b.2) env ctx

variable {env : Env} {ctx : Context} {name : String} {t : Ty} {v : Value}

theorem Typed.enter (h : env.Typed ctx) : env.enter.Typed ([] :: ctx) := .cons .nil h

theorem Typed.leave {vars : List (String × Ty)} (h : env.Typed (vars :: ctx)) :
    env.leave.Typed ctx := by
  cases h with
  | cons _ h => exact h

theorem Typed.bind (h : env.Typed ctx) (hv : t.Has v) :
    (env.bind name v).Typed (ctx.bind name t) := by
  cases h with
  | nil => exact .nil
  | cons hscope hrest => exact .cons (.cons ⟨rfl, hv⟩ hscope) hrest

private theorem lookup_typed (name : String) {bs : Bindings} {vars : List (String × Ty)}
    (h : List.Forall₂ (fun b v => b.1 = v.1 ∧ v.2.Has b.2) bs vars) :
    (∀ t, vars.lookup name = some t → ∃ v, bs.lookup name = some v ∧ t.Has v) ∧
      (vars.lookup name = none → bs.lookup name = none) := by
  induction h with
  | nil => simp
  | @cons b var bs vars hb _ ih =>
    obtain ⟨n, w⟩ := b
    obtain ⟨n', t'⟩ := var
    obtain ⟨rfl, hw⟩ := hb
    cases hn : name == n with
    | true => simpa [List.lookup_cons, hn] using hw
    | false => simpa only [List.lookup_cons, hn] using ih

theorem Typed.get? (h : env.Typed ctx) (hfind : ctx.find? name = some t) :
    ∃ v, env.get? name = some v ∧ t.Has v := by
  induction h with
  | nil => simp [Context.find?] at hfind
  | cons hscope _ ih =>
    rename_i bs vars env ctx _
    obtain ⟨hsome, hnone⟩ := lookup_typed name hscope
    cases hvars : vars.lookup name with
    | some t' =>
      obtain ⟨v, hv, htype⟩ := hsome t' hvars
      obtain rfl : t' = t := by simpa [Context.find?, hvars] using hfind
      exact ⟨v, by simp [Env.get?, hv], htype⟩
    | none =>
      obtain ⟨v, hv, htype⟩ := ih (by simpa [Context.find?, hvars] using hfind)
      exact ⟨v, by simpa [Env.get?, hnone hvars] using hv, htype⟩

private theorem set?_typed (name : String) (v : Value) {bs : Bindings}
    {vars : List (String × Ty)} (h : List.Forall₂ (fun b v => b.1 = v.1 ∧ v.2.Has b.2) bs vars) :
    (∀ t, vars.lookup name = some t → t.Has v → ∃ bs', bs.set? name v = some bs' ∧
      List.Forall₂ (fun b v => b.1 = v.1 ∧ v.2.Has b.2) bs' vars) ∧
      (vars.lookup name = none → bs.set? name v = none) := by
  induction h with
  | nil => simp [Bindings.set?]
  | @cons b var bs vars hb hrest ih =>
    obtain ⟨n, w⟩ := b
    obtain ⟨n', t'⟩ := var
    obtain ⟨rfl, hw⟩ := hb
    by_cases hn : name = n
    · subst hn
      simpa [Bindings.set?] using fun hv => ⟨hv, hrest⟩
    · have hne : (n == name) = false := beq_false_of_ne (Ne.symm hn)
      simp only [List.lookup_cons, beq_false_of_ne hn, Bindings.set?, hne, Bool.false_eq_true,
        if_false, Option.map_eq_none_iff]
      refine ⟨fun t hlookup hv => ?_, ih.2⟩
      obtain ⟨bs', hset, htyped⟩ := ih.1 t hlookup hv
      exact ⟨(n, w) :: bs', by simp [hset], .cons ⟨rfl, hw⟩ htyped⟩

theorem Typed.set? (h : env.Typed ctx) (hfind : ctx.find? name = some t) (hv : t.Has v) :
    ∃ env', env.set? name v = some env' ∧ env'.Typed ctx := by
  induction h with
  | nil => simp [Context.find?] at hfind
  | cons hscope hrest ih =>
    rename_i bs vars env ctx
    obtain ⟨hsome, hnone⟩ := set?_typed name v hscope
    cases hvars : vars.lookup name with
    | some t' =>
      obtain rfl : t' = t := by simpa [Context.find?, hvars] using hfind
      obtain ⟨bs', hset, htyped⟩ := hsome t' hvars hv
      exact ⟨bs' :: env, by simp [Env.set?, hset], .cons htyped hrest⟩
    | none =>
      obtain ⟨env', hset, htyped⟩ := ih (by simpa [Context.find?, hvars] using hfind)
      exact ⟨bs :: env', by simp [Env.set?, hnone hvars, hset], .cons hscope htyped⟩

private theorem zip_typed : ∀ {params : List (String × Ty)} {args : List Value},
    Ty.HasAll (params.map Prod.snd) args →
      List.Forall₂ (fun b v => b.1 = v.1 ∧ v.2.Has b.2) ((params.map Prod.fst).zip args) params
  | [], _, rfl => .nil
  | _ :: _, _, ⟨_, _, rfl, hw, hws⟩ => .cons ⟨rfl, hw⟩ (zip_typed hws)

theorem typed_ofArgs {params : List (String × Ty)} {args : List Value}
    (h : Ty.HasAll (params.map Prod.snd) args) :
    (Env.ofArgs (params.map Prod.fst) args).Typed [params.reverse] :=
  .cons (List.rel_reverse (zip_typed h)) .nil

end Env

/-- Calls with arguments of the right types give values of the result types. -/
def CallsSound (sigs : Signatures) (call : Calls) : Prop :=
  ∀ name params ret args, sigs name = some (params, ret) →
    Ty.HasAll (params.map Prod.snd) args → Sound (call name args) ret.Has

private theorem BinOp.eval_sound {op : BinOp} {l r t : Ty} {v w : Value} {pos : Pos}
    (h : op.resultType l r = some t) (hv : l.Has v) (hw : r.Has w) :
    Sound (op.eval v w pos) t.Has := by
  unfold BinOp.resultType at h
  split at h
  · rename_i hints
    obtain ⟨hl, hr⟩ := Bool.and_eq_true_iff.mp hints
    obtain rfl : l = .int := Ty.eq_prim_of_same hl
    obtain rfl : r = .int := Ty.eq_prim_of_same hr
    obtain rfl : Ty.int = t := by simpa using h
    obtain ⟨m, rfl⟩ := hv
    obtain ⟨n, rfl⟩ := hw
    cases op with
    | add | sub | mul => exact .ok ⟨_, rfl⟩
    | div =>
      show Sound (if n = 0 then .error (.divisionByZero pos) else .ok (Value.int (m / n))) _
      split
      · exact .error (by simp)
      · exact .ok ⟨_, rfl⟩
  · split at h
    · rename_i hstrings
      simp only [Bool.and_eq_true] at hstrings
      obtain ⟨⟨hop, hl⟩, hr⟩ := hstrings
      obtain rfl : op = .add := by simpa using hop
      obtain rfl : l = .string := Ty.eq_prim_of_same hl
      obtain rfl : r = .string := Ty.eq_prim_of_same hr
      obtain rfl : Ty.string = t := by simpa using h
      obtain ⟨x, rfl⟩ := hv
      obtain ⟨y, rfl⟩ := hw
      exact .ok ⟨_, rfl⟩
    · simp at h

abbrev Gives (t : Ty) (ctx : Context) : Value × Env → Prop :=
  fun (v, env) => t.Has v ∧ env.Typed ctx

private theorem lookup_of_mem {fields : List (String × Ty)} {p : String × Ty}
    (hnodup : (fields.map Prod.fst).Nodup) (hp : p ∈ fields) :
    fields.lookup p.1 = some p.2 := by
  induction fields with
  | nil => simp at hp
  | cons field fields ih =>
    obtain ⟨hfresh, hnodup⟩ := List.nodup_cons.mp hnodup
    rcases List.mem_cons.mp hp with rfl | hp
    · exact List.lookup_cons_self
    · have hne : p.1 ≠ field.1 := fun heq => hfresh (heq ▸ List.mem_map_of_mem hp)
      rw [List.lookup_cons, beq_false_of_ne hne]
      exact ih hnodup hp

/-- The actions give values of the types of the fields that they are for. -/
def ActionsSound (ctx : Context) (fields : List (String × Ty))
    (actions : List (String × Action Value)) : Prop :=
  ∀ field action, actions.lookup field = some action →
    ∃ expected, fields.lookup field = some expected ∧
      ∀ env, env.Typed ctx → Sound (action env) (Gives expected ctx)

/-- A field gets a value of its type, from an initialiser or by default. -/
theorem ActionsSound.field {ctx : Context} {fields : List (String × Ty)}
    {actions : List (String × Action Value)} {p : String × Ty} {env : Env}
    (h : ActionsSound ctx fields actions) (hnodup : (fields.map Prod.fst).Nodup) (hp : p ∈ fields)
    (henv : env.Typed ctx) :
    Sound ((actions.lookup p.1).getD (fun env => .ok (.ofType p.2, env)) env) (Gives p.2 ctx) := by
  cases hlookup : actions.lookup p.1 with
  | none => exact .ok ⟨Ty.has_ofType p.2, henv⟩
  | some action =>
    obtain ⟨expected, hexpected, hsound⟩ := h p.1 action hlookup
    rw [lookup_of_mem hnodup hp] at hexpected
    obtain rfl : p.2 = expected := by simpa using hexpected
    exact hsound env henv

private theorem fieldValues_sound {ctx : Context} {all : List (String × Ty)}
    {actions : List (String × Action Value)} (h : ActionsSound ctx all actions)
    (hnodup : (all.map Prod.fst).Nodup) : ∀ (fields : List (String × Ty)) {env : Env},
      fields ⊆ all → env.Typed ctx → Sound (fieldValues actions fields env) fun (vs, env) =>
        Ty.HasFields fields vs ∧ env.Typed ctx
  | [], env, _, henv => .ok ⟨rfl, henv⟩
  | (field, type) :: fields, env, hsub, henv => by
    rcases h.field hnodup (hsub List.mem_cons_self) henv with
      ⟨⟨v, env₁⟩, hr, hv, henv₁⟩ | ⟨e, hr, he⟩
    · rw [fieldValues, hr]
      refine (fieldValues_sound h hnodup fields (List.subset_of_cons_subset hsub) henv₁).map ?_
      rintro ⟨vs, env₂⟩ ⟨hvs, henv₂⟩
      exact ⟨⟨v, vs, rfl, hv, hvs⟩, henv₂⟩
    · rw [fieldValues, hr]
      exact .error he

section Eval

variable {sigs : Signatures} {call : Calls} {ctx : Context}

mutual

/-- A typed expression evaluates to a value of its type. -/
theorem Expr.eval_sound (hcall : CallsSound sigs call) : ∀ (e : Expr) {t : Ty} {env : Env},
    e.Typed sigs ctx t → env.Typed ctx → Sound (e.eval call env) (Gives t ctx)
  | .literal info value, t, env, h, henv => by
    obtain ⟨_, rfl⟩ := h
    refine .ok ⟨?_, henv⟩
    cases value <;> simp [Literal.type, Value.ofLiteral, Ty.Has, Ty.unit, Ty.int, Ty.string,
      Ty.char, Ty.bool]
  | .ident info name, t, env, h, henv => by
    obtain ⟨v, hget, hv⟩ := henv.get? h.2
    rw [Expr.eval, hget]
    exact .ok ⟨hv, henv⟩
  | .binop info op left right, t, env, h, henv => by
    obtain ⟨_, l, r, hleft, hright, hop⟩ := h
    rcases Expr.eval_sound hcall right hright henv with ⟨⟨w, env₁⟩, hr, hw, henv₁⟩ | ⟨e, hr, he⟩
    · rcases Expr.eval_sound hcall left hleft henv₁ with ⟨⟨v, env₂⟩, hl, hv, henv₂⟩ | ⟨e, hl, he⟩
      · rw [Expr.eval, hr]
        simp only [hl]
        exact (BinOp.eval_sound hop hv hw).map fun _ hv => ⟨hv, henv₂⟩
      · rw [Expr.eval, hr]
        simp only [hl]
        exact .error he
    · rw [Expr.eval, hr]
      exact .error he
  | .assign info name value, t, env, h, henv => by
    obtain ⟨_, hfind, found, hvalue, hsame⟩ := h
    rcases Expr.eval_sound hcall value hvalue henv with ⟨⟨v, env₁⟩, hr, hv, henv₁⟩ | ⟨e, hr, he⟩
    · have hvt := (Ty.has_of_same hsame).mpr hv
      obtain ⟨env₂, hset, henv₂⟩ := henv₁.set? hfind hvt
      rw [Expr.eval, hr]
      simp only [hset]
      exact .ok ⟨hvt, henv₂⟩
    · rw [Expr.eval, hr]
      exact .error he
  | .array info elems, t, env, h, henv => by
    obtain ⟨_, elem, rfl, helems⟩ := h
    obtain ⟨types, htypes, hsame⟩ := helems.exists_types
    rw [Expr.eval]
    refine (Expr.evalAll_sound hcall elems htypes henv).map ?_
    rintro ⟨vs, env₁⟩ ⟨hvs, henv₁⟩
    exact ⟨⟨vs, rfl, Ty.has_of_hasAll hvs hsame⟩, henv₁⟩
  | .tuple info elems, t, env, h, henv => by
    obtain ⟨_, types, rfl, helems⟩ := h
    rw [Expr.eval]
    refine (Expr.evalAll_sound hcall elems helems henv).map ?_
    rintro ⟨vs, env₁⟩ ⟨hvs, henv₁⟩
    exact ⟨⟨vs, rfl, hvs⟩, henv₁⟩
  | .object info name inits, t, env, h, henv => by
    obtain ⟨htype, fields, rfl, hnodup, hinits⟩ := h
    rw [Expr.eval, Info.type?, htype]
    have hactions := Expr.evalInits_sound hcall inits hinits
    refine (fieldValues_sound hactions hnodup fields (List.Subset.refl fields) henv).map ?_
    rintro ⟨vs, env₁⟩ ⟨hvs, henv₁⟩
    exact ⟨⟨vs, rfl, hvs⟩, henv₁⟩
  | .call info name args, t, env, h, henv => by
    obtain ⟨_, params, hsig, hargs⟩ := h
    obtain ⟨types, htypes, hsame⟩ := hargs.exists_types
    rcases Expr.evalAll_sound hcall args htypes henv with ⟨⟨vs, env₁⟩, hr, hvs, henv₁⟩ | ⟨e, hr, he⟩
    · rw [Expr.eval, hr]
      exact (hcall _ _ _ _ hsig (Ty.hasAll_of_forall₂ hvs hsame)).map fun _ hv => ⟨hv, henv₁⟩
    · rw [Expr.eval, hr]
      exact .error he
  | .default info type, t, env, h, henv => by
    have htype : info.type = some t := h
    rw [Expr.eval, Info.type?, htype]
    exact .ok ⟨Ty.has_ofType t, henv⟩

theorem Expr.evalAll_sound (hcall : CallsSound sigs call) : ∀ (es : List Expr) {types : List Ty}
    {env : Env}, Expr.TypedAll sigs ctx es types → env.Typed ctx →
      Sound (Expr.evalAll call es env) fun (vs, env) => Ty.HasAll types vs ∧ env.Typed ctx
  | [], _, env, rfl, henv => .ok ⟨rfl, henv⟩
  | e :: es, _, env, ⟨t, ts, rfl, he, hes⟩, henv => by
    rcases Expr.eval_sound hcall e he henv with ⟨⟨v, env₁⟩, hr, hv, henv₁⟩ | ⟨h, hr, hh⟩
    · rw [Expr.evalAll, hr]
      refine (Expr.evalAll_sound hcall es hes henv₁).map ?_
      rintro ⟨vs, env₂⟩ ⟨hvs, henv₂⟩
      exact ⟨⟨v, vs, rfl, hv, hvs⟩, henv₂⟩
    · rw [Expr.evalAll, hr]
      exact .error hh

theorem Expr.evalInits_sound (hcall : CallsSound sigs call) {fields : List (String × Ty)} :
    ∀ (inits : List (String × Expr)), Expr.TypedInits sigs ctx fields inits →
      ActionsSound ctx fields (Expr.evalInits call inits)
  | [], _, _, _, hlookup => by simp [Expr.evalInits] at hlookup
  | (n, e) :: inits, ⟨⟨expected, found, hfield, he, hsame⟩, hinits⟩, field, action, hlookup => by
    rw [Expr.evalInits, List.lookup_cons] at hlookup
    cases hn : field == n with
    | true =>
      obtain rfl : field = n := by simpa using hn
      obtain rfl : e.eval call = action := by simpa [hn] using hlookup
      refine ⟨expected, hfield, fun env henv => (Expr.eval_sound hcall e he henv).imp ?_⟩
      rintro ⟨v, env₁⟩ ⟨hv, henv₁⟩
      exact ⟨(Ty.has_of_same hsame).mp hv, henv₁⟩
    | false =>
      exact Expr.evalInits_sound hcall inits hinits field action (by simpa [hn] using hlookup)

end

theorem Expr.holds_sound (hcall : CallsSound sigs call) {test : Expr} {env : Env}
    (h : test.Typed sigs ctx .bool) (henv : env.Typed ctx) :
    Sound (test.holds call env) fun (_, env) => env.Typed ctx :=
  (test.eval_sound hcall h henv).map fun _ h => h.2

/-- How a statement may end: normally, in an environment that has the variables of a context, or
with a value of the result type of the function. -/
def Flow.Ends (ret : Option Ty) (ctx : Context) : Flow × Env → Prop
  | (.normal _, env) => env.Typed ctx
  | (.returned v, _) => ∃ t, ret = some t ∧ t.Has v

theorem inScope_sound {action : Action Flow} {ret : Option Ty} {ctx' : Context} {env : Env}
    {vars : List (String × Ty)} (h : Sound (action env.enter) (Flow.Ends ret (vars :: ctx'))) :
    Sound (inScope action env) (Flow.Ends ret ctx') := by
  refine h.map ?_
  rintro ⟨flow, env'⟩ hends
  cases flow with
  | normal v => exact Env.Typed.leave hends
  | returned v => exact hends

/-- What holds of a round of a loop holds of its repetition. -/
theorem repeatWhile_sound {test : Action Bool} {body : Action Flow} {ret : Option Ty}
    (htest : ∀ env, env.Typed ctx → Sound (test env) fun (_, env) => env.Typed ctx)
    (hbody : ∀ env, env.Typed ctx → Sound (body env) (Flow.Ends ret ctx)) :
    ∀ (rounds : Nat) {env : Env}, env.Typed ctx →
      Sound (repeatWhile test body rounds env) (Flow.Ends ret ctx)
  | 0, env, _ => .error (by simp)
  | rounds + 1, env, henv => by
    rw [repeatWhile]
    rcases htest env henv with ⟨⟨truth, env₁⟩, hr, henv₁⟩ | ⟨e, hr, he⟩
    · rw [hr]
      cases truth with
      | false => exact .ok henv₁
      | true =>
        rcases hbody env₁ henv₁ with ⟨⟨flow, env₂⟩, hr', hends⟩ | ⟨e, hr', he⟩
        · simp only [hr']
          cases flow with
          | returned v => exact .ok hends
          | normal v => exact repeatWhile_sound htest hbody rounds hends
        · simp only [hr']
          exact .error he
    · rw [hr]
      exact .error he

theorem initialValue_sound (hcall : CallsSound sigs call) {name : String}
    {type : Option TypeExpr} {init : Option Expr} {t : Ty} {env : Env}
    (hrecorded : recordedType type init = some t) (hinit : InitTyped sigs ctx t init)
    (henv : env.Typed ctx) : Sound (initialValue call name type init env) (Gives t ctx) := by
  cases init with
  | some e =>
    obtain ⟨found, he, hsame⟩ := hinit
    rw [initialValue]
    refine (e.eval_sound hcall he henv).imp ?_
    rintro ⟨v, env₁⟩ ⟨hv, henv₁⟩
    exact ⟨(Ty.has_of_same hsame).mpr hv, henv₁⟩
  | none =>
    cases type with
    | none => simp [recordedType] at hrecorded
    | some written =>
      have htype : written.info.type = some t := by simpa [recordedType] using hrecorded
      rw [initialValue, Info.type?, htype]
      exact .ok ⟨Ty.has_ofType t, henv⟩

variable {ret : Option Ty} (rounds : Nat)

mutual

/-- A typed statement leaves the variables of the context after it, or returns a value of the
result type. -/
theorem Stmt.exec_sound (hcall : CallsSound sigs call) : ∀ (s : Stmt) {ctx : Context} {env : Env},
    s.Typed sigs ret ctx → env.Typed ctx →
      Sound (s.exec call rounds env) (Flow.Ends ret (s.declare ctx))
  | .var info name type init, ctx, env, h, henv => by
    obtain ⟨t, hrecorded, hinit⟩ := h
    rw [Stmt.exec]
    refine (initialValue_sound hcall hrecorded hinit henv).map ?_
    rintro ⟨v, env₁⟩ ⟨hv, henv₁⟩
    simp only [Stmt.declare, hrecorded]
    exact henv₁.bind hv
  | .expr info e, ctx, env, h, henv => by
    obtain ⟨t, he⟩ := h
    rw [Stmt.exec]
    refine (e.eval_sound hcall he henv).map ?_
    rintro ⟨v, env₁⟩ ⟨_, henv₁⟩
    exact henv₁
  | .block info stmts, ctx, env, h, henv => by
    rw [Stmt.exec]
    obtain ⟨vars, hvars⟩ := Stmt.declareAll_cons stmts [] ctx
    exact inScope_sound (hvars ▸ Stmt.execAll_sound hcall stmts h henv.enter)
  | .cond info test yes none, ctx, env, h, henv => by
    rw [Stmt.exec]
    rcases Expr.holds_sound hcall h.1 henv with ⟨⟨truth, env₁⟩, hr, henv₁⟩ | ⟨e, hr, he⟩
    · rw [hr]
      cases truth with
      | true =>
        obtain ⟨vars, hvars⟩ := yes.declare_cons [] ctx
        exact inScope_sound (hvars ▸ Stmt.exec_sound hcall yes h.2 henv₁.enter)
      | false => exact .ok henv₁
    · rw [hr]
      exact .error he
  | .cond info test yes (some no), ctx, env, h, henv => by
    rw [Stmt.exec]
    rcases Expr.holds_sound hcall h.1 henv with ⟨⟨truth, env₁⟩, hr, henv₁⟩ | ⟨e, hr, he⟩
    · rw [hr]
      cases truth with
      | true =>
        obtain ⟨vars, hvars⟩ := yes.declare_cons [] ctx
        exact inScope_sound (hvars ▸ Stmt.exec_sound hcall yes h.2.1 henv₁.enter)
      | false =>
        obtain ⟨vars, hvars⟩ := no.declare_cons [] ctx
        exact inScope_sound (hvars ▸ Stmt.exec_sound hcall no h.2.2 henv₁.enter)
    · rw [hr]
      exact .error he
  | .loop info test body, ctx, env, h, henv => by
    rw [Stmt.exec]
    obtain ⟨vars, hvars⟩ := body.declare_cons [] ctx
    exact repeatWhile_sound (fun env henv => Expr.holds_sound hcall h.1 henv)
      (fun env henv => inScope_sound (hvars ▸ Stmt.exec_sound hcall body h.2 henv.enter))
      rounds henv
  | .ret info (some e), ctx, env, h, henv => by
    obtain ⟨t, found, hret, he, hsame⟩ := h
    rw [Stmt.exec]
    refine (e.eval_sound hcall he henv).map ?_
    rintro ⟨v, env₁⟩ ⟨hv, _⟩
    exact ⟨t, hret, (Ty.has_of_same hsame).mp hv⟩
  | .ret info none, ctx, env, h, henv => by
    obtain ⟨t, hret, hsame⟩ := h
    rw [Stmt.exec]
    exact .ok ⟨t, hret, (Ty.has_of_same hsame).mp rfl⟩

theorem Stmt.execAll_sound (hcall : CallsSound sigs call) : ∀ (ss : List Stmt) {ctx : Context}
    {env : Env} {last : Value}, Stmt.TypedAll sigs ret ctx ss → env.Typed ctx →
      Sound (Stmt.execAll call rounds last ss env) (Flow.Ends ret (Stmt.declareAll ctx ss))
  | [], ctx, env, last, _, henv => .ok henv
  | s :: ss, ctx, env, last, ⟨hs, hss⟩, henv => by
    rw [Stmt.execAll]
    rcases Stmt.exec_sound hcall s hs henv with ⟨⟨flow, env₁⟩, hr, hends⟩ | ⟨e, hr, he⟩
    · rw [hr]
      cases flow with
      | returned v => exact .ok hends
      | normal v => exact Stmt.execAll_sound hcall ss hss hends
    · rw [hr]
      exact .error he

end

end Eval

theorem Func.apply_sound {sigs : Signatures} {call : Calls} {f : Func} (rounds : Nat)
    {args : List Value} (hcall : CallsSound sigs call) (hf : f.Typed sigs)
    (hargs : Ty.HasAll (f.signature.1.map Prod.snd) args) :
    Sound (f.apply call rounds args) f.signature.2.Has := by
  have hnames : f.params.map Item.name = f.signature.1.map Prod.fst := by
    simp [Func.signature, Function.comp_def]
  unfold Func.apply
  rw [hnames]
  have hbody := f.body.exec_sound rounds hcall hf.body (Env.typed_ofArgs hargs)
  rcases hbody with ⟨⟨flow, env⟩, hr, hends⟩ | ⟨e, hr, he⟩
  · rw [hr]
    cases flow with
    | returned v =>
      obtain ⟨t, ht, hv⟩ := hends
      obtain rfl : f.signature.2 = t := by simpa using ht
      exact .ok hv
    | normal v =>
      rcases hf.returns with hunit | hfalls
      · exact .ok (show f.signature.2.Has .unit from hunit ▸ rfl)
      · obtain ⟨v, hv⟩ := Stmt.exec_returned_of_fallsOff hfalls hr
        simp at hv
  · rw [hr]
    exact .error he

namespace Module

variable {m : Module}

/-- Calls in a typed module give values of the result types. -/
theorem callsSound (hm : m.Typed) : ∀ fuel, CallsSound m.signatures (m.call fuel)
  | 0 => fun _ _ _ _ _ _ => .error (by simp)
  | fuel + 1 => fun name params ret args hsig hargs => by
    unfold Module.signatures at hsig
    cases hfunc : m.func? name with
    | none => simp [hfunc] at hsig
    | some f =>
      have hsignature : f.signature = (params, ret) := by simpa [hfunc] using hsig
      have hf : f ∈ m.funcs := List.mem_reverse.mp (List.mem_of_find?_eq_some hfunc)
      rw [Module.call, hfunc]
      have hargs' : Ty.HasAll (f.signature.1.map Prod.snd) args := hsignature ▸ hargs
      have hsound := Func.apply_sound fuel (callsSound hm fuel) (hm.funcs f hf) hargs'
      rwa [hsignature] at hsound

private theorem execModule_sound {call : Calls} (hcall : CallsSound m.signatures call)
    {rounds : Nat} : ∀ (ss : List Stmt) {ctx : Context} {env : Env} {last : Value},
      Stmt.TypedAll m.signatures none ctx ss → env.Typed ctx →
        Sound (Stmt.execModule call rounds last ss env) fun _ => True
  | [], _, _, _, _, _ => .ok trivial
  | s :: ss, ctx, env, last, ⟨hs, hss⟩, henv => by
    rw [Stmt.execModule]
    rcases s.exec_sound rounds hcall hs henv with ⟨⟨flow, env₁⟩, hr, hends⟩ | ⟨e, hr, he⟩
    · rw [hr]
      cases flow with
      | returned v =>
        obtain ⟨t, ht, _⟩ := hends
        simp at ht
      | normal v => exact execModule_sound hcall ss hss hends
    · rw [hr]
      exact .error he

/-- The evaluation of a typed module does not end in a fault. -/
theorem eval_sound (hm : m.Typed) (fuel : Nat) : Sound (m.eval fuel) fun _ => True :=
  (execModule_sound (callsSound hm fuel) m.stmts hm.stmts (.cons .nil .nil)).map fun _ _ => trivial

end Module
end EdeLang
