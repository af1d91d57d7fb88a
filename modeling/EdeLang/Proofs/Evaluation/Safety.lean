import EdeLang.Program
import EdeLang.Proofs.Evaluation.Soundness
import EdeLang.Proofs.Syntax.Fields

/-!
# Type safety of checked modules

An evaluation visits moments: parts of the tree that are about to be evaluated in an environment,
and calls. Each visit leads to the next ones as the evaluation goes on. Beside the environment a
moment has the variables that are declared there, with the types that the checker recorded for
them. In a checked module every visit is well typed, so none ends in a fault, values have the
types that their nodes carry, and bindings those that were recorded.
-/

namespace EdeLang

/-- What is about to be evaluated, with the declared variables and their values. -/
inductive Moment where
  | expr (ctx : Context) (env : Env) (e : Expr)
  | exprs (ctx : Context) (env : Env) (es : List Expr)
  | fields (ctx : Context) (env : Env) (inits : List (String × Expr)) (fields : List (String × Ty))
  | stmt (ctx : Context) (env : Env) (s : Stmt)
  | stmts (ctx : Context) (env : Env) (ss : List Stmt)
  | rounds (ctx : Context) (env : Env) (test : Expr) (body : Stmt) (left : Nat)
  | main (ctx : Context) (env : Env) (ss : List Stmt)
  | call (name : String) (args : List Value)

/-- The moments of the evaluation of a module with some fuel, each with the fuel that is left
there. A rule has no premise about the results of parts that are evaluated later, so moments
before an error and those of an endless evaluation are visited, too. -/
inductive Module.Visits (m : Module) (fuel : Nat) : Nat → Moment → Prop
  | start : Visits m fuel fuel (.main [[]] (Env.enter []) m.stmts)
  | mainHead {k ctx env s ss} : Visits m fuel k (.main ctx env (s :: ss)) →
      Visits m fuel k (.stmt ctx env s)
  | mainTail {k ctx env s ss flow env'} : Visits m fuel k (.main ctx env (s :: ss)) →
      s.exec (m.call k) k env = .ok (flow, env') →
      Visits m fuel k (.main (s.declare ctx) env' ss)
  | right {k ctx env info op left right} :
      Visits m fuel k (.expr ctx env (.binop info op left right)) →
      Visits m fuel k (.expr ctx env right)
  | left {k ctx env info op left right v env'} :
      Visits m fuel k (.expr ctx env (.binop info op left right)) →
      right.eval (m.call k) env = .ok (v, env') → Visits m fuel k (.expr ctx env' left)
  | assigned {k ctx env info name value} :
      Visits m fuel k (.expr ctx env (.assign info name value)) →
      Visits m fuel k (.expr ctx env value)
  | array {k ctx env info elems} : Visits m fuel k (.expr ctx env (.array info elems)) →
      Visits m fuel k (.exprs ctx env elems)
  | tuple {k ctx env info elems} : Visits m fuel k (.expr ctx env (.tuple info elems)) →
      Visits m fuel k (.exprs ctx env elems)
  | object {k ctx env info name inits object fields} :
      Visits m fuel k (.expr ctx env (.object info name inits)) →
      info.type = some (.object object fields) → Visits m fuel k (.fields ctx env inits fields)
  | args {k ctx env info name args} : Visits m fuel k (.expr ctx env (.call info name args)) →
      Visits m fuel k (.exprs ctx env args)
  | call {k ctx env info name args vs env'} :
      Visits m fuel k (.expr ctx env (.call info name args)) →
      Expr.evalAll (m.call k) args env = .ok (vs, env') → Visits m fuel k (.call name vs)
  | exprsHead {k ctx env e es} : Visits m fuel k (.exprs ctx env (e :: es)) →
      Visits m fuel k (.expr ctx env e)
  | exprsTail {k ctx env e es v env'} : Visits m fuel k (.exprs ctx env (e :: es)) →
      e.eval (m.call k) env = .ok (v, env') → Visits m fuel k (.exprs ctx env' es)
  | fieldsHead {k ctx env inits field type fields e} :
      Visits m fuel k (.fields ctx env inits ((field, type) :: fields)) →
      inits.lookup field = some e → Visits m fuel k (.expr ctx env e)
  | fieldsTail {k ctx env inits field type fields v env'} :
      Visits m fuel k (.fields ctx env inits ((field, type) :: fields)) →
      ((Expr.evalInits (m.call k) inits).lookup field).getD (fun env => .ok (.ofType type, env)) env
        = .ok (v, env') →
      Visits m fuel k (.fields ctx env' inits fields)
  | init {k ctx env info name type e} :
      Visits m fuel k (.stmt ctx env (.var info name type (some e))) →
      Visits m fuel k (.expr ctx env e)
  | expression {k ctx env info e} : Visits m fuel k (.stmt ctx env (.expr info e)) →
      Visits m fuel k (.expr ctx env e)
  | block {k ctx env info ss} : Visits m fuel k (.stmt ctx env (.block info ss)) →
      Visits m fuel k (.stmts ([] :: ctx) env.enter ss)
  | test {k ctx env info test yes no} : Visits m fuel k (.stmt ctx env (.cond info test yes no)) →
      Visits m fuel k (.expr ctx env test)
  | yes {k ctx env info test yes no env'} :
      Visits m fuel k (.stmt ctx env (.cond info test yes no)) →
      test.holds (m.call k) env = .ok (true, env') →
      Visits m fuel k (.stmt ([] :: ctx) env'.enter yes)
  | no {k ctx env info test yes no env'} :
      Visits m fuel k (.stmt ctx env (.cond info test yes (some no))) →
      test.holds (m.call k) env = .ok (false, env') →
      Visits m fuel k (.stmt ([] :: ctx) env'.enter no)
  | loop {k ctx env info test body} : Visits m fuel k (.stmt ctx env (.loop info test body)) →
      Visits m fuel k (.rounds ctx env test body k)
  | roundTest {k ctx env test body left} :
      Visits m fuel k (.rounds ctx env test body (left + 1)) → Visits m fuel k (.expr ctx env test)
  | roundBody {k ctx env test body left env'} :
      Visits m fuel k (.rounds ctx env test body (left + 1)) →
      test.holds (m.call k) env = .ok (true, env') →
      Visits m fuel k (.stmt ([] :: ctx) env'.enter body)
  | roundNext {k ctx env test body left env' v env''} :
      Visits m fuel k (.rounds ctx env test body (left + 1)) →
      test.holds (m.call k) env = .ok (true, env') →
      inScope (body.exec (m.call k) k) env' = .ok (.normal v, env'') →
      Visits m fuel k (.rounds ctx env'' test body left)
  | returned {k ctx env info e} : Visits m fuel k (.stmt ctx env (.ret info (some e))) →
      Visits m fuel k (.expr ctx env e)
  | stmtsHead {k ctx env s ss} : Visits m fuel k (.stmts ctx env (s :: ss)) →
      Visits m fuel k (.stmt ctx env s)
  | stmtsTail {k ctx env s ss v env'} : Visits m fuel k (.stmts ctx env (s :: ss)) →
      s.exec (m.call k) k env = .ok (.normal v, env') →
      Visits m fuel k (.stmts (s.declare ctx) env' ss)
  | body {k name args f} : Visits m fuel (k + 1) (.call name args) → m.func? name = some f →
      Visits m fuel k
        (.stmt [f.signature.1.reverse] (.ofArgs (f.params.map Item.name) args) f.body)

/-- The moment follows the rules, and its environment has the declared variables. -/
def Moment.Typed (m : Module) : Moment → Prop
  | .expr ctx env e => env.Typed ctx ∧ ∃ t, e.Typed m.signatures ctx t
  | .exprs ctx env es => env.Typed ctx ∧ ∃ types, Expr.TypedAll m.signatures ctx es types
  | .fields ctx env inits left => env.Typed ctx ∧ ∃ all, (all.map Prod.fst).Nodup ∧
      left ⊆ all ∧ Expr.TypedInits m.signatures ctx all inits
  | .stmt ctx env s => env.Typed ctx ∧ ∃ ret, s.Typed m.signatures ret ctx
  | .stmts ctx env ss => env.Typed ctx ∧ ∃ ret, Stmt.TypedAll m.signatures ret ctx ss
  | .rounds ctx env test body _ => env.Typed ctx ∧ test.Typed m.signatures ctx .bool ∧
      ∃ ret, body.Typed m.signatures ret ([] :: ctx)
  | .main ctx env ss => env.Typed ctx ∧ Stmt.TypedAll m.signatures none ctx ss
  | .call name args => ∃ f, m.func? name = some f ∧ Ty.HasAll (f.signature.1.map Prod.snd) args

private theorem Expr.TypedInits.typed_of_lookup {sigs : Signatures} {ctx : Context}
    {fields : List (String × Ty)} {field : String} {e : Expr} :
    ∀ {inits : List (String × Expr)}, Expr.TypedInits sigs ctx fields inits →
      inits.lookup field = some e → ∃ t, e.Typed sigs ctx t
  | [], _, hlookup => by simp at hlookup
  | (n, e') :: inits, ⟨⟨_, found, _, he, _⟩, hinits⟩, hlookup => by
    rw [List.lookup_cons] at hlookup
    cases hn : field == n with
    | true =>
      obtain rfl : e' = e := by simpa [hn] using hlookup
      exact ⟨found, he⟩
    | false => exact Expr.TypedInits.typed_of_lookup hinits (by simpa [hn] using hlookup)

private theorem Stmt.Typed.of_cond {sigs : Signatures} {ret : Option Ty} {ctx : Context}
    {info : Info} {test : Expr} {yes : Stmt} {no : Option Stmt}
    (h : (Stmt.cond info test yes no).Typed sigs ret ctx) :
    test.Typed sigs ctx .bool ∧ yes.Typed sigs ret ([] :: ctx) := by
  cases no with
  | none => exact h
  | some no => exact ⟨h.1, h.2.1⟩

namespace Module

variable {m : Module} {fuel : Nat}

/-- Visits lead from well-typed moments to well-typed moments. -/
theorem Visits.typed (hm : m.Typed) {k : Nat} {moment : Moment}
    (h : m.Visits fuel k moment) : moment.Typed m := by
  have hcall : ∀ k, CallsSound m.signatures (m.call k) := callsSound hm
  induction h with
  | start => exact ⟨.cons .nil .nil, hm.stmts⟩
  | mainHead _ ih => exact ⟨ih.1, none, ih.2.1⟩
  | @mainTail k ctx env s ss flow env' _ hexec ih =>
    have hends := (s.exec_sound k (hcall k) ih.2.1 ih.1).of_ok hexec
    cases flow with
    | normal v => exact ⟨hends, ih.2.2⟩
    | returned v =>
      obtain ⟨t, ht, _⟩ := hends
      simp at ht
  | right _ ih =>
    obtain ⟨henv, t, _, l, r, _, hr, _⟩ := ih
    exact ⟨henv, r, hr⟩
  | @left k ctx env info op left right v env' _ heval ih =>
    obtain ⟨henv, t, _, l, r, hl, hr, _⟩ := ih
    exact ⟨((right.eval_sound (hcall k) hr henv).of_ok heval).2, l, hl⟩
  | assigned _ ih =>
    obtain ⟨henv, t, _, _, found, hvalue, _⟩ := ih
    exact ⟨henv, found, hvalue⟩
  | array _ ih =>
    obtain ⟨henv, t, _, elem, _, helems⟩ := ih
    obtain ⟨types, htypes, _⟩ := helems.exists_types
    exact ⟨henv, types, htypes⟩
  | tuple _ ih =>
    obtain ⟨henv, t, _, types, _, helems⟩ := ih
    exact ⟨henv, types, helems⟩
  | object _ htype ih =>
    obtain ⟨henv, t, ht, fields, rfl, hnodup, hinits⟩ := ih
    obtain ⟨rfl, rfl⟩ : _ = _ ∧ _ = _ := by simpa [htype] using ht
    exact ⟨henv, _, hnodup, List.Subset.refl _, hinits⟩
  | args _ ih =>
    obtain ⟨henv, t, _, params, _, hargs⟩ := ih
    obtain ⟨types, htypes, _⟩ := hargs.exists_types
    exact ⟨henv, types, htypes⟩
  | @call k ctx env info name args vs env' _ hevalAll ih =>
    obtain ⟨henv, t, _, params, hsig, hargs⟩ := ih
    obtain ⟨types, htypes, hsame⟩ := hargs.exists_types
    obtain ⟨hvs, _⟩ := (Expr.evalAll_sound (hcall k) args htypes henv).of_ok hevalAll
    obtain ⟨f, hf, hsignature⟩ := Option.map_eq_some_iff.mp hsig
    exact ⟨f, hf, hsignature ▸ Ty.hasAll_of_forall₂ hvs hsame⟩
  | exprsHead _ ih =>
    obtain ⟨henv, _, t, ts, _, he, _⟩ := ih
    exact ⟨henv, t, he⟩
  | @exprsTail k ctx env e es v env' _ heval ih =>
    obtain ⟨henv, _, t, ts, _, he, hes⟩ := ih
    exact ⟨((e.eval_sound (hcall k) he henv).of_ok heval).2, ts, hes⟩
  | fieldsHead _ hlookup ih =>
    obtain ⟨henv, all, _, _, hinits⟩ := ih
    exact ⟨henv, hinits.typed_of_lookup hlookup⟩
  | @fieldsTail k ctx env inits field type fields v env' _ hfield ih =>
    obtain ⟨henv, all, hnodup, hsub, hinits⟩ := ih
    have hactions := Expr.evalInits_sound (hcall k) inits hinits
    have hsound := hactions.field hnodup (hsub List.mem_cons_self) henv
    exact ⟨(hsound.of_ok hfield).2, all, hnodup, List.subset_of_cons_subset hsub, hinits⟩
  | init _ ih =>
    obtain ⟨henv, ret, t, _, found, he, _⟩ := ih
    exact ⟨henv, found, he⟩
  | expression _ ih =>
    obtain ⟨henv, ret, t, he⟩ := ih
    exact ⟨henv, t, he⟩
  | block _ ih =>
    obtain ⟨henv, ret, hss⟩ := ih
    exact ⟨henv.enter, ret, hss⟩
  | test _ ih =>
    obtain ⟨henv, ret, hs⟩ := ih
    exact ⟨henv, .bool, hs.of_cond.1⟩
  | @yes k ctx env info test yes no env' _ hholds ih =>
    obtain ⟨henv, ret, hs⟩ := ih
    have henv' := (Expr.holds_sound (hcall k) hs.of_cond.1 henv).of_ok hholds
    exact ⟨henv'.enter, ret, hs.of_cond.2⟩
  | @no k ctx env info test yes no env' _ hholds ih =>
    obtain ⟨henv, ret, htest, _, hno⟩ := ih
    have henv' := (Expr.holds_sound (hcall k) htest henv).of_ok hholds
    exact ⟨henv'.enter, ret, hno⟩
  | loop _ ih =>
    obtain ⟨henv, ret, htest, hbody⟩ := ih
    exact ⟨henv, htest, ret, hbody⟩
  | roundTest _ ih => exact ⟨ih.1, .bool, ih.2.1⟩
  | @roundBody k ctx env test body left env' _ hholds ih =>
    obtain ⟨henv, htest, ret, hbody⟩ := ih
    have henv' := (Expr.holds_sound (hcall k) htest henv).of_ok hholds
    exact ⟨henv'.enter, ret, hbody⟩
  | @roundNext k ctx env test body left env' v env'' _ hholds hround ih =>
    obtain ⟨henv, htest, ret, hbody⟩ := ih
    have henv' := (Expr.holds_sound (hcall k) htest henv).of_ok hholds
    obtain ⟨vars, hvars⟩ := body.declare_cons [] ctx
    have hsound := inScope_sound (hvars ▸ body.exec_sound k (hcall k) hbody henv'.enter)
    exact ⟨hsound.of_ok hround, htest, ret, hbody⟩
  | returned _ ih =>
    obtain ⟨henv, ret, t, found, _, he, _⟩ := ih
    exact ⟨henv, found, he⟩
  | stmtsHead _ ih =>
    obtain ⟨henv, ret, hs, _⟩ := ih
    exact ⟨henv, ret, hs⟩
  | @stmtsTail k ctx env s ss v env' _ hexec ih =>
    obtain ⟨henv, ret, hs, hss⟩ := ih
    exact ⟨(s.exec_sound k (hcall k) hs henv).of_ok hexec, ret, hss⟩
  | @body k name args f _ hfunc ih =>
    obtain ⟨g, hg, hargs⟩ := ih
    obtain rfl : f = g := by simpa [hfunc] using hg
    have hf : f ∈ m.funcs := List.mem_reverse.mp (List.mem_of_find?_eq_some hfunc)
    have hnames : f.params.map Item.name = f.signature.1.map Prod.fst := by
      simp [Func.signature, Function.comp_def]
    exact ⟨hnames ▸ Env.typed_ofArgs hargs, _, (hm.funcs f hf).body⟩

theorem Visits.expr_sound (hm : m.Typed) {k : Nat} {ctx : Context} {env : Env} {e : Expr}
    (h : m.Visits fuel k (.expr ctx env e)) :
    Sound (e.eval (m.call k) env) fun (v, env') =>
      (∃ t, e.info.type = some t ∧ t.Has v) ∧ env'.Typed ctx := by
  obtain ⟨henv, t, he⟩ := h.typed hm
  refine (e.eval_sound (callsSound hm k) he henv).imp ?_
  rintro ⟨v, env'⟩ ⟨hv, henv'⟩
  exact ⟨⟨t, he.type_eq, hv⟩, henv'⟩

theorem Visits.stmt_sound (hm : m.Typed) {k : Nat} {ctx : Context} {env : Env} {s : Stmt}
    (h : m.Visits fuel k (.stmt ctx env s)) :
    Sound (s.exec (m.call k) k env) fun (flow, env') =>
      ∀ v, flow = .normal v → env'.Typed (s.declare ctx) := by
  obtain ⟨henv, ret, hs⟩ := h.typed hm
  refine (s.exec_sound k (callsSound hm k) hs henv).imp ?_
  rintro ⟨flow, env'⟩ hends v rfl
  exact hends

/-- A visited call has a value of the result type of its function. Only a function without a
result can end without a return. -/
theorem Visits.call_sound (hm : m.Typed) {k : Nat} {name : String} {args : List Value}
    (h : m.Visits fuel k (.call name args)) :
    ∃ f t, m.func? name = some f ∧ f.ret.info.type = some t ∧ Sound (m.call k name args) t.Has ∧
      (t ≠ .unit → ∀ j env v env', f.body.exec (m.call j) j env ≠ .ok (.normal v, env')) := by
  obtain ⟨f, hfunc, hargs⟩ := h.typed hm
  have hf := hm.funcs f (List.mem_reverse.mp (List.mem_of_find?_eq_some hfunc))
  have hsig : m.signatures name = some f.signature := by simp [signatures, hfunc]
  refine ⟨f, f.signature.2, hfunc, hf.ret, callsSound hm k _ _ _ _ hsig hargs, ?_⟩
  intro hne j env v env' hexec
  obtain ⟨w, hw⟩ := Stmt.exec_returned_of_fallsOff (hf.returns.resolve_left hne) hexec
  simp at hw

theorem exists_of_checked {name source : String} {m' : Module}
    (h : Module.checked name source = .ok m') :
    ∃ m t, Module.ofSource name source = .ok m ∧ m.check = ⟨m', .ok t⟩ := by
  unfold Module.checked at h
  split at h
  · simp at h
  · rename_i m hread
    split at h
    · rename_i m'' t hcheck
      obtain rfl : m'' = m' := by simpa using h
      exact ⟨m, t, hread, hcheck⟩
    · simp at h

theorem typed_of_checked {name source : String} {m : Module}
    (h : Module.checked name source = .ok m) : m.Typed := by
  obtain ⟨m₀, t, hread, hcheck⟩ := exists_of_checked h
  exact typed_of_check (distinctFields_of_source hread) hcheck

end Module

/-- The evaluation of a checked module is type safe, with any fuel. It does not end in a fault,
and neither does any part that it visits. An expression has values of the type that its node
carries, variables those of the types that were recorded for them, and calls those of the result
type of the function. A function with a result never ends without a return. Objects are taken to
have fields of different names, as those of every module have that was read from a text. -/
theorem evaluation_typed :
    (∀ name source m, Module.ofSource name source = .ok m → m.DistinctFields) ∧
    ∀ (m m' : Module) (t : Ty), m.DistinctFields → m.check = ⟨m', .ok t⟩ → ∀ fuel,
      (∀ f, m'.eval fuel ≠ .error (.fault f)) ∧
      (∀ k ctx env e, m'.Visits fuel k (.expr ctx env e) → env.Typed ctx ∧
        Sound (e.eval (m'.call k) env) fun (v, env') =>
          (∃ t, e.info.type = some t ∧ t.Has v) ∧ env'.Typed ctx) ∧
      (∀ k ctx env s, m'.Visits fuel k (.stmt ctx env s) → env.Typed ctx ∧
        Sound (s.exec (m'.call k) k env) fun (flow, env') =>
          ∀ v, flow = .normal v → env'.Typed (s.declare ctx)) ∧
      (∀ k name args, m'.Visits fuel k (.call name args) →
        ∃ f t, m'.func? name = some f ∧ f.ret.info.type = some t ∧
          Sound (m'.call k name args) t.Has ∧
          (t ≠ .unit → ∀ j env v env', f.body.exec (m'.call j) j env ≠ .ok (.normal v, env'))) := by
  refine ⟨fun _ _ _ => Module.distinctFields_of_source, fun m m' t hdistinct hcheck fuel => ?_⟩
  have hm := Module.typed_of_check hdistinct hcheck
  exact ⟨(m'.eval_sound hm fuel).ne_fault,
    fun _ _ _ _ h => ⟨(h.typed hm).1, h.expr_sound hm⟩,
    fun _ _ _ _ h => ⟨(h.typed hm).1, h.stmt_sound hm⟩,
    fun _ _ _ h => h.call_sound hm⟩

/-- A text with an object, a loop that returns, and a call. -/
def pickText : String :=
  "def object P\x7bx: int\x7d def func pick(b: bool): int \x7blet p = P\x7b\x7d; while (b) " ++
  "\x7breturn 6;\x7d return 0;\x7d pick(true);"

theorem exists_checked_pickText : ∃ m, Module.checked "pick" pickText = .ok m := by
  have hok : (Module.checked "pick" pickText).isOk = true := by decide +kernel
  cases h : Module.checked "pick" pickText with
  | ok m => exact ⟨m, rfl⟩
  | error e => simp [h, Except.isOk, Except.toBool] at hok

theorem evaluation_typed_pickText : ∃ m m' t, Module.ofSource "pick" pickText = .ok m ∧
    m.DistinctFields ∧ m.check = ⟨m', .ok t⟩ ∧ ∀ fuel f, m'.eval fuel ≠ .error (.fault f) := by
  obtain ⟨m', hm'⟩ := exists_checked_pickText
  obtain ⟨m, t, hread, hcheck⟩ := Module.exists_of_checked hm'
  have hdistinct := evaluation_typed.1 _ _ m hread
  exact ⟨m, m', t, hread, hdistinct, hcheck,
    fun fuel => (evaluation_typed.2 m m' t hdistinct hcheck fuel).1⟩

end EdeLang
