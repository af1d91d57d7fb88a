import EdeLang.Proofs.Lowering.Expressions

/-!
# Statements on the machine

Between statements nothing is pushed above the variables of a call. The code of a statement leads
to such a state again, with the variables as they are after the statement, or to a return
instruction with the value that the statement returns.
-/

namespace EdeLang

open Lowering

namespace Scene

variable {b : Binary} {ip : Nat} {env env' : Env} {v : Value} {s : Scene b} {m : Machine}

/-- Above the variables there is nothing but the values. -/
def Rests (ip : Nat) (vs : List Value) (env : Env) (s : Scene b) (m : Machine) : Prop :=
  s.temps = [] ∧ s.Pushed ip vs env m

/-- The machine is about to return the value from the call. -/
def Returning (v : Value) (s : Scene b) (m : Machine) : Prop :=
  ∃ ip words w heap, b.Placed ip [op .ret] ∧
    m = s.machine.poised ip (s.below ++ words ++ [w]) heap ∧ s.heap.Extends heap ∧ v.Rep heap w

/-- The machine is where a statement leads that ends in the given way. -/
def Ended (ip : Nat) (s : Scene b) (a : Flow × Env) (m : Machine) : Prop :=
  match a.1 with
  | .normal _ => s.Rests ip [] a.2 m
  | .returned v => s.Returning v m

theorem Pushed.returning (h : s.Pushed ip [v] env m) (hp : b.Placed ip [op .ret]) :
    s.Returning v m := by
  obtain ⟨vars, words, heap, rfl, hext, _, hwords⟩ := h
  cases hwords with
  | cons hw hrest =>
    cases hrest
    exact ⟨ip, vars ++ s.temps, _, heap, hp, by simp [List.append_assoc], hext, hw⟩

/-- A value above the variables can be taken for one more variable. -/
theorem rests_iff (h : env'.values = env.values ++ [v]) :
    s.Rests ip [] env' m ↔ s.Rests ip [v] env m := by
  constructor
  · rintro ⟨htemps, vars, words, heap, rfl, hext, hvars, hwords⟩
    rw [h] at hvars
    obtain ⟨first, second, hfirst, hsecond, rfl⟩ := Value.exists_append_of_forall₂ hvars
    cases hwords
    exact ⟨htemps, first, second, heap, by simp [htemps], hext, hfirst, hsecond⟩
  · rintro ⟨htemps, vars, words, heap, rfl, hext, hvars, hwords⟩
    refine ⟨htemps, vars ++ words, [], heap, by simp [htemps], hext, ?_, .nil⟩
    rw [h]
    exact List.rel_append hvars hwords

end Scene

section Rules

variable {b : Binary} {α : Type} {least most n ip ip' : Nat} {vs : List Value} {env env' : Env}
  {r : Except Halt α}

theorem Sim.rests {us : α → List Value} {env' : α → Env}
    (h : Sim b least most (Scene.Pushed ip vs env) r fun s a => s.Pushed ip' (us a) (env' a)) :
    Sim b least most (Scene.Rests ip vs env) r fun s a => s.Rests ip' (us a) (env' a) :=
  h.reindex fun s _ hs => ⟨s, hs.2, fun _ _ h' => ⟨hs.1, h'⟩⟩

theorem Moves.rests {us : List Value}
    (h : Moves b n (Scene.Pushed ip vs env) (Scene.Pushed ip' us env')) :
    Moves b n (Scene.Rests ip vs env) (Scene.Rests ip' us env') :=
  fun s m hs => (h s m hs.2).mono fun _ h' => ⟨hs.1, h'⟩

theorem Sim.ended {S : Scene b → Machine → Prop} {r : Except Halt (Flow × Env)}
    (h : Sim b least most S r (Scene.Ended ip))
    (hmoves : ∀ env, Moves b n (Scene.Rests ip [] env) (Scene.Rests ip' [] env)) :
    Sim b least (most + n) S r (Scene.Ended ip') := by
  refine h.bind_const ?_ fun e he => he
  rintro ⟨flow, env⟩ rfl
  cases flow with
  | normal v => exact .of_moves (hmoves env)
  | returned v =>
    have hdone : Sim b least 0 _ (.ok (Flow.returned v, env)) (Scene.Ended ip') :=
      .ok fun s m hs => hs
    exact hdone.most_mono (Nat.zero_le n)

end Rules

section Scopes

variable {b : Binary} {least : Nat} {ret : Option Ty}

private theorem values_cons (x : String × Value) (xs : Bindings) (env : Env) :
    Env.values ((x :: xs) :: env) = Env.values (xs :: env) ++ [x.2] := by
  simp [Env.values]

private theorem moves_close (hb : b.Runnable) (env : Env) : ∀ (scope : Bindings) {ip : Nat},
    b.Placed ip (List.replicate scope.length (op .pop)) →
      Moves b scope.length (Scene.Rests ip [] (scope :: env))
        (Scene.Rests (ip + Code.extent (List.replicate scope.length (op .pop))) [] env)
  | [], ip, _ => fun _ _ hs => .here hs
  | x :: xs, ip, hp => by
    obtain ⟨hpop, hrest⟩ := Binary.placed_append (c := [op .pop]) hp
    have hextent : Code.extent (List.replicate (xs.length + 1) (op .pop)) = _ :=
      Code.extent_append [op .pop] (List.replicate xs.length (op .pop))
    rw [List.length_cons, hextent, ← Nat.add_assoc, Nat.add_comm xs.length]
    refine Moves.trans (fun s m hs => ?_) (moves_close hb env xs hrest)
    exact (moves_pop hb hpop).rests s m ((Scene.rests_iff (values_cons x xs env)).mp hs)

/-- A scope on the machine: its variables are taken off when it closes. -/
private theorem inScope_sim (hb : b.Runnable) {action : Action Flow} {work : ActionWork} {env : Env}
    {ctx : Context} {vars : List (String × Ty)} {ip : Nat} {l : Lowered}
    (hslots : l.slots = Context.names (vars :: ctx))
    (hp : b.Placed ip (closed ctx.names l).code)
    (hsound : Sound (action env.enter) (Flow.Ends ret (vars :: ctx)))
    (hsim : Sim b least (work env.enter) (Scene.Rests ip [] env.enter) (action env.enter)
      (Scene.Ended (ip + l.code.extent))) :
    Sim b least (scopeWork action work env) (Scene.Rests ip [] env) (inScope action env)
      (Scene.Ended (ip + (closed ctx.names l).code.extent)) := by
  have hcount : l.slots.length - ctx.names.length = vars.length := by
    rw [hslots]
    simp [Context.names]
  rw [closed, hcount] at hp ⊢
  obtain ⟨_, hpops⟩ := Binary.placed_append hp
  simp only [Code.extent_append, ← Nat.add_assoc]
  have hstart : Sim b least (work env.enter) (Scene.Rests ip [] env) (action env.enter)
      (Scene.Ended (ip + l.code.extent)) := hsim
  refine hstart.bind ?_ fun e he => by rw [inScope, he]; rfl
  rintro ⟨flow, env'⟩ hr
  have hends := hsound.of_ok hr
  rw [inScope, hr]
  cases flow with
  | returned v => exact .ok fun s m hs => hs
  | normal v =>
    cases hends with
    | cons hscope hrest =>
      rename_i scope rest
      rw [← hscope.length_eq] at hpops ⊢
      exact .of_moves (moves_close hb rest scope hpops)

end Scopes

theorem length_slots_le {slots : Slots} {lastId : Nat} {s : Stmt} {l : Lowered}
    (h : stmt slots lastId s = .ok l) : l.slots.length ≤ slots.length + l.code.extent := by
  cases s with
  | var info name type init =>
    simp only [stmt, bind_eq_ok, pure_eq_ok] at h
    obtain ⟨c, hc, rfl⟩ := h
    have hpos : 0 < c.extent := by
      cases init with
      | some e => exact extent_expr_pos hc
      | none =>
        cases type with
        | none => simp [initial] at hc
        | some written =>
          obtain ⟨t, _, rfl⟩ := map_eq_ok hc
          exact extent_pushDefault_pos t
    simp only [List.length_cons]
    omega
  | expr info e =>
    simp only [stmt, bind_eq_ok, pure_eq_ok] at h
    obtain ⟨c, _, rfl⟩ := h
    exact Nat.le_add_right _ _
  | block info body =>
    simp only [stmt, bind_eq_ok, pure_eq_ok] at h
    obtain ⟨c, _, rfl⟩ := h
    exact Nat.le_add_right _ _
  | cond info test yes no =>
    cases no with
    | none =>
      simp only [stmt, bind_eq_ok, pure_eq_ok] at h
      obtain ⟨t, _, y, _, rfl⟩ := h
      exact Nat.le_add_right _ _
    | some no =>
      simp only [stmt, bind_eq_ok, pure_eq_ok] at h
      obtain ⟨t, _, y, _, n, _, rfl⟩ := h
      exact Nat.le_add_right _ _
  | loop info test body =>
    simp only [stmt, bind_eq_ok, pure_eq_ok] at h
    obtain ⟨t, _, c, _, rfl⟩ := h
    exact Nat.le_add_right _ _
  | ret info e =>
    cases e with
    | none =>
      obtain rfl := Except.ok.inj h
      exact Nat.le_add_right _ _
    | some e =>
      simp only [stmt, bind_eq_ok, pure_eq_ok] at h
      obtain ⟨c, _, rfl⟩ := h
      exact Nat.le_add_right _ _

section Exec

variable {b : Binary} {sigs : Signatures} {call : Calls} {count : CallWork} {ret : Option Ty}
  {ctx : Context}

private theorem holds_sim (hb : b.Runnable) (hsound : CallsSound sigs call) {least : Nat}
    (hcall : CallsSim b least sigs call count) {test : Expr} {env : Env} {t : Code} {ip : Nat}
    (htest : test.Typed sigs ctx .bool) (henv : env.Typed ctx) (ht : expr ctx.names test = .ok t)
    (hp : b.Placed ip t) (hslots : ctx.names.length < 2 ^ 63 + ip) :
    Sim b least (test.work call count env) (Scene.Rests ip [] env) (test.holds call env) fun s a =>
      s.Rests (ip + t.extent) [.bool a.1] a.2 := by
  refine (test.sim hb hsound hcall htest henv ht hp hslots).rests.bind_const (k := 0) ?_
    fun e he => by rw [Expr.holds, he]; rfl
  rintro ⟨v, env₁⟩ hr
  obtain ⟨⟨truth, rfl⟩, _⟩ := (test.eval_sound hsound htest henv).of_ok hr
  rw [Expr.holds, hr]
  exact .ok fun s m hs => hs

/-- The code of a loop repeats its round. If the rounds run out, the machine has taken a step
for each of them. -/
private theorem repeatWhile_sim {rounds start tested entered left done : Nat} {test : Action Bool}
    {body : Action Flow} {testWork bodyWork : ActionWork}
    (htested : ∀ env, env.Typed ctx → Sound (test env) fun (_, env) => env.Typed ctx)
    (hended : ∀ env, env.Typed ctx → Sound (body env) (Flow.Ends ret ctx))
    (htest : ∀ env, env.Typed ctx → Sim b rounds (testWork env) (Scene.Rests start [] env)
      (test env) fun s a => s.Rests tested [.bool a.1] a.2)
    (hbody : ∀ env, env.Typed ctx → Sim b rounds (bodyWork env) (Scene.Rests entered [] env)
      (body env) (Scene.Ended left))
    (henter : ∀ env, Moves b 1 (Scene.Rests tested [.bool true] env) (Scene.Rests entered [] env))
    (hleave : ∀ env, Moves b 1 (Scene.Rests tested [.bool false] env) (Scene.Rests done [] env))
    (hback : ∀ env, Moves b 1 (Scene.Rests left [] env) (Scene.Rests start [] env)) :
    ∀ (k : Nat) {env : Env}, k ≤ rounds → env.Typed ctx →
      Sim b k (repeatWork test testWork body bodyWork k env) (Scene.Rests start [] env)
        (repeatWhile test body k env) (Scene.Ended done)
  | 0, env, _, _ => .outOfFuel
  | k + 1, env, hk, henv => by
    rw [repeatWork]
    refine ((htest env henv).least_mono hk).bind ?_ fun e he => by rw [repeatWhile, he]
    rintro ⟨truth, env₁⟩ hr
    have henv₁ := (htested env henv).of_ok hr
    rw [repeatWhile, hr]
    cases truth with
    | false => exact .of_moves (hleave env₁)
    | true =>
      have hround := (hbody env₁ henv₁).least_mono hk
      refine (hround.bind ?_ fun e he => by simp only [he]).after (henter env₁)
      rintro ⟨flow, env₂⟩ hr'
      simp only [hr']
      cases flow with
      | returned v => exact .ok fun s m hs => hs
      | normal v =>
        have henv₂ : env₂.Typed ctx := (hended env₁ henv₁).of_ok hr'
        have hrest := repeatWhile_sim htested hended htest hbody henter hleave hback k
          (Nat.le_of_succ_le hk) henv₂
        -- the jump back is the step that pays for the round
        exact hrest.after_steps (hback env₂)

private theorem initial_sim (hb : b.Runnable) (hsound : CallsSound sigs call) {least : Nat}
    (hcall : CallsSim b least sigs call count) {name : String} {type : Option TypeExpr}
    {init : Option Expr} {t : Ty} {env : Env} {c : Code} {ip : Nat}
    (hrecorded : recordedType type init = some t) (hinit : InitTyped sigs ctx t init)
    (henv : env.Typed ctx) (hc : initial ctx.names name type init = .ok c) (hp : b.Placed ip c)
    (hslots : ctx.names.length < 2 ^ 63 + ip) :
    Sim b least (initialWork call count type init env) (Scene.Pushed ip [] env)
      (initialValue call name type init env) fun s a => s.Pushed (ip + c.extent) [a.1] a.2 := by
  cases init with
  | some e =>
    obtain ⟨found, he, _⟩ := hinit
    exact e.sim hb hsound hcall he henv hc hp hslots
  | none =>
    cases type with
    | none => simp [recordedType] at hrecorded
    | some written =>
      have htype : written.info.type = some t := by simpa [recordedType] using hrecorded
      obtain rfl : pushDefault t = c := by simpa [initial, typeOf_eq htype, Except.map] using hc
      rw [initialValue, initialWork, Info.type?, htype]
      exact .of_moves (moves_default hb t hp)

private theorem values_bind {name : String} {v : Value} {env : Env} {vars : List (String × Ty)}
    (h : env.Typed (vars :: ctx)) : (env.bind name v).values = env.values ++ [v] := by
  cases h with
  | cons _ _ => exact values_cons _ _ _

variable {rounds : Nat}

theorem slots_stmt {s : Stmt} {vars : List (String × Ty)} {lastId : Nat} {l : Lowered}
    (hs : s.Typed sigs ret (vars :: ctx))
    (hl : stmt (Context.names (vars :: ctx)) lastId s = .ok l) :
    l.slots = Context.names (s.declare (vars :: ctx)) := by
  obtain ⟨l', hl', hslots, _⟩ := stmt_ok s lastId hs
  rw [hl] at hl'
  obtain rfl := Except.ok.inj hl'
  exact hslots

private theorem scoped_sim (hb : b.Runnable) (hsound : CallsSound sigs call) {s : Stmt}
    {vars : List (String × Ty)} {env : Env} {lastId ip : Nat} {l : Lowered}
    (hs : s.Typed sigs ret ([] :: vars :: ctx)) (henv : env.Typed (vars :: ctx))
    (hl : stmt (Context.names (vars :: ctx)) lastId s = .ok l)
    (hp : b.Placed ip (closed (Context.names (vars :: ctx)) l).code)
    (hsim : Sim b rounds (s.work call count rounds env.enter) (Scene.Rests ip [] env.enter)
      (s.exec call rounds env.enter) (Scene.Ended (ip + l.code.extent))) :
    Sim b rounds (scopeWork (s.exec call rounds) (s.work call count rounds) env)
      (Scene.Rests ip [] env) (inScope (s.exec call rounds) env)
      (Scene.Ended (ip + (closed (Context.names (vars :: ctx)) l).code.extent)) := by
  obtain ⟨vars', hvars'⟩ := s.declare_cons [] (vars :: ctx)
  have hslots := slots_stmt hs hl
  have hends := s.exec_sound rounds hsound hs henv.enter
  rw [hvars'] at hslots hends
  exact inScope_sim hb hslots hp hends hsim

mutual

/-- The code of a statement simulates its execution. -/
theorem Stmt.sim (hb : b.Runnable) (hsound : CallsSound sigs call)
    (hcall : CallsSim b rounds sigs call count) : ∀ (s : Stmt) {vars : List (String × Ty)}
      {ctx : Context} {env : Env} {lastId ip : Nat} {l : Lowered}, s.Typed sigs ret (vars :: ctx) →
        env.Typed (vars :: ctx) → stmt (Context.names (vars :: ctx)) lastId s = .ok l →
          b.Placed ip l.code → (Context.names (vars :: ctx)).length < 2 ^ 63 + ip →
            Sim b rounds (s.work call count rounds env) (Scene.Rests ip [] env)
              (s.exec call rounds env) (Scene.Ended (ip + l.code.extent))
  | .var info name type init, vars, ctx, env, lastId, ip, l, h, henv, hl, hp, hslots => by
    obtain ⟨t, hrecorded, hinit⟩ := h
    simp only [stmt, bind_eq_ok, pure_eq_ok] at hl
    obtain ⟨c, hc, rfl⟩ := hl
    have hinitial := initial_sim hb hsound hcall hrecorded hinit henv hc hp hslots
    rw [Stmt.work]
    refine hinitial.rests.bind_const (k := 0) ?_ fun e he => by rw [Stmt.exec, he]; rfl
    rintro ⟨v, env₁⟩ hr
    obtain ⟨_, henv₁⟩ := (initialValue_sound hsound hrecorded hinit henv).of_ok hr
    rw [Stmt.exec, hr]
    exact .ok fun s m hs => (Scene.rests_iff (values_bind henv₁)).mpr hs
  | .expr info e, vars, ctx, env, lastId, ip, l, h, henv, hl, hp, hslots => by
    obtain ⟨t, he⟩ := h
    simp only [stmt, bind_eq_ok, pure_eq_ok] at hl
    obtain ⟨c, hc, rfl⟩ := hl
    obtain ⟨hpc, hpop⟩ := Binary.placed_append hp
    rw [Stmt.exec, Stmt.work]
    simp only [Code.extent_append, ← Nat.add_assoc]
    have hvalue := (e.sim hb hsound hcall he henv hc hpc hslots).then_moves
      fun a _ => moves_pop hb hpop
    exact hvalue.rests.map fun s a m hs => hs
  | .block info body, vars, ctx, env, lastId, ip, l, h, henv, hl, hp, hslots => by
    simp only [stmt, bind_eq_ok, pure_eq_ok] at hl
    obtain ⟨inner, hinner, rfl⟩ := hl
    obtain ⟨inner', hinner', hnames, _⟩ := stmts_ok body lastId h
    obtain rfl := Except.ok.inj (hinner.symm.trans hinner')
    obtain ⟨vars', hvars'⟩ := Stmt.declareAll_cons body [] (vars :: ctx)
    have hends : Sound (Stmt.execAll call rounds .unit body env.enter) _ :=
      Stmt.execAll_sound rounds hsound body h henv.enter
    rw [hvars'] at hnames hends
    rw [Stmt.exec, Stmt.work]
    exact inScope_sim hb hnames hp hends
      (Stmt.simAll hb hsound hcall body h henv.enter hinner (Binary.placed_append hp).1 hslots)
  | .cond info test yes none, vars, ctx, env, lastId, ip, l, h, henv, hl, hp, hslots => by
    obtain ⟨htest, hyes⟩ := h
    simp only [stmt, bind_eq_ok, pure_eq_ok] at hl
    obtain ⟨t, ht, y, hy, rfl⟩ := hl
    obtain ⟨hp, htail⟩ := Binary.placed_append hp
    obtain ⟨hp, hpy⟩ := Binary.placed_append hp
    obtain ⟨hpt, hpz⟩ := Binary.placed_append hp
    obtain ⟨hpj, helse, hend, hnext⟩ :=
      Binary.placed_append (c := [.inst (.jumpl (endIfLabel (lastId + 1)))]) htail
    simp only [Code.extent_append, ← Nat.add_assoc] at hpy hpj helse hend hnext ⊢
    rw [Stmt.work]
    refine (holds_sim hb hsound hcall htest henv ht hpt hslots).bind ?_
      fun e he => by rw [Stmt.exec, he]
    rintro ⟨truth, env₁⟩ hr
    have henv₁ := (Expr.holds_sound hsound htest henv).of_ok hr
    rw [Stmt.exec, hr]
    cases truth with
    | false => exact .of_moves (moves_jumpz_taken hb hpz helse hnext).rests
    | true =>
      have hbranch := Stmt.sim hb hsound hcall yes hyes henv₁.enter hy
        (Binary.placed_append hpy).1 (by simp only [Context.names_enter]; omega)
      -- both labels stand at the end here, but the jump over the other branch is still taken
      have hscoped := (scoped_sim hb hsound hyes henv₁ hy hpy hbranch).ended
        fun env => (moves_jump hb hpj hend hnext).rests
      exact hscoped.after (moves_jumpz_passed hb hpz helse).rests
  | .cond info test yes (some no), vars, ctx, env, lastId, ip, l, h, henv, hl, hp, hslots => by
    obtain ⟨htest, hyes, hno⟩ := h
    simp only [stmt, bind_eq_ok, pure_eq_ok] at hl
    obtain ⟨t, ht, y, hy, n, hn, rfl⟩ := hl
    obtain ⟨hp, hend, hnext⟩ := Binary.placed_append hp
    obtain ⟨hp, hpn⟩ := Binary.placed_append hp
    obtain ⟨hp, hmiddle⟩ := Binary.placed_append hp
    obtain ⟨hp, hpy⟩ := Binary.placed_append hp
    obtain ⟨hpt, hpz⟩ := Binary.placed_append hp
    obtain ⟨hpj, helse, helsenext⟩ :=
      Binary.placed_append (c := [.inst (.jumpl (endIfLabel (lastId + 1)))]) hmiddle
    simp only [Code.extent_append, ← Nat.add_assoc] at hpy hpj hpn helse helsenext hend hnext ⊢
    rw [Stmt.work]
    refine (holds_sim hb hsound hcall htest henv ht hpt hslots).bind ?_
      fun e he => by rw [Stmt.exec, he]
    rintro ⟨truth, env₁⟩ hr
    have henv₁ := (Expr.holds_sound hsound htest henv).of_ok hr
    rw [Stmt.exec, hr]
    cases truth with
    | false =>
      have hbranch := Stmt.sim hb hsound hcall no hno henv₁.enter hn
        (Binary.placed_append hpn).1 (by simp only [Context.names_enter]; omega)
      exact (scoped_sim hb hsound hno henv₁ hn hpn hbranch).after
        (moves_jumpz_taken hb hpz helse helsenext).rests
    | true =>
      have hbranch := Stmt.sim hb hsound hcall yes hyes henv₁.enter hy
        (Binary.placed_append hpy).1 (by simp only [Context.names_enter]; omega)
      have hscoped := (scoped_sim hb hsound hyes henv₁ hy hpy hbranch).ended
        fun env => (moves_jump hb hpj hend hnext).rests
      exact hscoped.after (moves_jumpz_passed hb hpz helse).rests
  | .loop info test body, vars, ctx, env, lastId, ip, l, h, henv, hl, hp, hslots => by
    obtain ⟨htest, hbody⟩ := h
    simp only [stmt, bind_eq_ok, pure_eq_ok] at hl
    obtain ⟨t, ht, inner, hinner, rfl⟩ := hl
    obtain ⟨hp, htail⟩ := Binary.placed_append hp
    obtain ⟨hp, hpinner⟩ := Binary.placed_append hp
    obtain ⟨⟨hstart, hpt⟩, hpz⟩ := Binary.placed_append hp
    obtain ⟨hpj, hend, hnext⟩ :=
      Binary.placed_append (c := [.inst (.jumpl (testLabel (lastId + 1)))]) htail
    have hlists := Binary.Placed.lists hpt
    simp only [Code.extent_append, ← Nat.add_assoc] at hpz hpinner hpj hend hnext ⊢
    rw [Stmt.exec, Stmt.work]
    obtain ⟨vars', hvars'⟩ := body.declare_cons [] (vars :: ctx)
    have hends : ∀ env, env.Typed (vars :: ctx) →
        Sound (inScope (body.exec call rounds) env) (Flow.Ends ret (vars :: ctx)) := by
      intro env henv
      exact inScope_sound (hvars' ▸ body.exec_sound rounds hsound hbody henv.enter)
    refine repeatWhile_sim (fun env henv => Expr.holds_sound hsound htest henv) hends
      (fun env henv => holds_sim hb hsound hcall htest henv ht hpt hslots) ?_
      (fun env => (moves_jumpz_passed hb hpz hend).rests)
      (fun env => (moves_jumpz_taken hb hpz hend hnext).rests)
      (fun env => (moves_jump hb hpj hstart hlists).rests) rounds (Nat.le_refl rounds) henv
    intro env henv
    have hround := Stmt.sim hb hsound hcall body hbody henv.enter hinner
      (Binary.placed_append hpinner).1 (by simp only [Context.names_enter]; omega)
    exact scoped_sim hb hsound hbody henv hinner hpinner hround
  | .ret info (some e), vars, ctx, env, lastId, ip, l, h, henv, hl, hp, hslots => by
    obtain ⟨t, found, _, he, _⟩ := h
    simp only [stmt, bind_eq_ok, pure_eq_ok] at hl
    obtain ⟨c, hc, rfl⟩ := hl
    obtain ⟨hpc, hpret⟩ := Binary.placed_append hp
    rw [Stmt.exec, Stmt.work]
    exact (e.sim hb hsound hcall he henv hc hpc hslots).rests.map fun s a m hs =>
      hs.2.returning hpret
  | .ret info none, vars, ctx, env, lastId, ip, l, h, henv, hl, hp, hslots => by
    obtain rfl := Except.ok.inj hl
    obtain ⟨hpush, hpret⟩ := Binary.placed_append (c := [push 0]) hp
    have hmove : Moves b 1 (Scene.Pushed ip [] env) (Scene.Pushed _ [.unit] env) :=
      moves_push hb (fun _ => rfl) hpush
    rw [Stmt.exec, Stmt.work]
    exact .of_moves fun s m hs => (hmove s m hs.2).mono fun m' h' => h'.returning hpret

theorem Stmt.simAll (hb : b.Runnable) (hsound : CallsSound sigs call)
    (hcall : CallsSim b rounds sigs call count) : ∀ (ss : List Stmt) {vars : List (String × Ty)}
      {ctx : Context} {env : Env} {last : Value} {lastId ip : Nat} {l : Lowered},
        Stmt.TypedAll sigs ret (vars :: ctx) ss → env.Typed (vars :: ctx) →
          stmts (Context.names (vars :: ctx)) lastId ss = .ok l → b.Placed ip l.code →
            (Context.names (vars :: ctx)).length < 2 ^ 63 + ip →
              Sim b rounds (Stmt.workAll call count rounds ss env) (Scene.Rests ip [] env)
                (Stmt.execAll call rounds last ss env) (Scene.Ended (ip + l.code.extent))
  | [], vars, ctx, env, last, lastId, ip, l, _, _, hl, hp, _ => by
    obtain rfl := Except.ok.inj hl
    exact .ok fun s m hs => hs
  | s :: ss, vars, ctx, env, last, lastId, ip, l, ⟨hs, hss⟩, henv, hl, hp, hslots => by
    simp only [stmts, bind_eq_ok, pure_eq_ok] at hl
    obtain ⟨first, hfirst, rest, hrest, rfl⟩ := hl
    obtain ⟨hpfirst, hprest⟩ := Binary.placed_append hp
    simp only [Code.extent_append, ← Nat.add_assoc]
    rw [Stmt.workAll]
    refine (Stmt.sim hb hsound hcall s hs henv hfirst hpfirst hslots).bind ?_
      fun e he => by rw [Stmt.execAll, he]
    rintro ⟨flow, env₁⟩ hr
    have hends := (s.exec_sound rounds hsound hs henv).of_ok hr
    rw [Stmt.execAll, hr]
    cases flow with
    | returned v => exact .ok fun s m hs => hs
    | normal v =>
      obtain ⟨vars₁, hvars₁⟩ := s.declare_cons vars ctx
      have henv₁ : env₁.Typed (vars₁ :: ctx) := hvars₁ ▸ hends
      have hnames := slots_stmt hs hfirst
      have hle := length_slots_le hfirst
      rw [hvars₁] at hnames hss
      rw [hnames] at hrest hle
      exact Stmt.simAll hb hsound hcall ss hss henv₁ hrest hprest (by omega)

end

end Exec
end EdeLang
